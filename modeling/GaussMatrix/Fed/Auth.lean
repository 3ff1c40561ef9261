import GaussMatrix.Api.Redaction
import GaussMatrix.Util.Hashing

/-!
# Federation request authentication

The `X-Matrix` header of a request between servers, and the bytes that its signature covers.
-/

namespace GaussMatrix.Fed

open Library Util Api

/-- A parsed `X-Matrix` authorization header. -/
structure XMatrixAuth where
  origin : Str
  destination : Option Str
  keyId : Str
  signature : Str
  deriving DecidableEq

/-- The parameters after the scheme, which is matched in any case. -/
def stripScheme (header : Str) : Option Str :=
  let header := trimStart header
  if (header.take 8).map Char.toLower = "x-matrix".toList then some (trimStart (header.drop 8))
  else none

/-- The comma-separated parameters; a comma inside quotes does not separate. -/
def splitFields (current : Str) (inQuotes : Bool) : Str → List Str
  | [] => if trim current = [] then [] else [current]
  | c :: cs =>
      if c = '"' then splitFields (current ++ [c]) (!inQuotes) cs
      else if c = ',' ∧ inQuotes = false then current :: splitFields [] inQuotes cs
      else splitFields (current ++ [c]) inQuotes cs

/-- The value without the double quotes around it. -/
def unquote (value : Str) : Str :=
  match value with
  | '"' :: rest => if rest.getLast? = some '"' then rest.dropLast else value
  | _ => value

namespace XMatrixAuth

/-- The parameters read so far. -/
structure Fields where
  origin : Option Str
  destination : Option Str
  keyId : Option Str
  signature : Option Str

/-- Read one parameter; a later one replaces an earlier one, and other names are skipped. -/
def readField (fields : Fields) (field : Str) : Option Fields :=
  (splitOnce '=' field).map fun (name, value) =>
    let name := trim name
    let value := unquote (trim value)
    if name = "origin".toList then { fields with origin := some value }
    else if name = "destination".toList then { fields with destination := some value }
    else if name = "key".toList then { fields with keyId := some value }
    else if name = "sig".toList then { fields with signature := some value }
    else fields

/-- Parse an `Authorization` header value: the origin, the key id and the signature are required. -/
def parse (header : Str) : Option XMatrixAuth := do
  let rest ← stripScheme header
  let fields ← (splitFields [] false rest).foldlM readField ⟨none, none, none, none⟩
  return {
    origin := ← fields.origin
    destination := fields.destination
    keyId := ← fields.keyId
    signature := ← fields.signature }

/-- The auth as an `Authorization` header value. -/
def toHeader (auth : XMatrixAuth) : Str :=
  let out := "X-Matrix origin=\"".toList ++ auth.origin ++ "\",".toList
  let out := match auth.destination with
    | some destination => out ++ ("destination=\"".toList ++ destination ++ "\",".toList)
    | none => out
  out ++ ("key=\"".toList ++ auth.keyId ++ "\",sig=\"".toList ++ auth.signature ++ "\"".toList)

/-! ### Reading a rendered header -/

/-- A parameter as it is rendered. -/
def param (name value : Str) : Str := name ++ '=' :: '"' :: (value ++ ['"'])

section

variable {name value rest current : Str} {fields : Fields}

/-- No comma separates inside quotes. -/
theorem splitFields_quoted (h : '"' ∉ value) :
    splitFields current true (value ++ '"' :: rest) = splitFields (current ++ (value ++ ['"'])) false rest := by
  induction value generalizing current with
  | nil => rw [List.nil_append, splitFields, if_pos rfl, Bool.not_true, List.nil_append]
  | cons c cs ih =>
      rw [List.mem_cons, not_or] at h
      rw [List.cons_append, splitFields, if_neg (Ne.symm h.1), if_neg (fun hc => nomatch hc.2), ih h.2,
        List.append_assoc, List.singleton_append, List.cons_append]

theorem splitFields_unquoted (hquote : '"' ∉ name) (hcomma : ',' ∉ name) :
    splitFields current false (name ++ rest) = splitFields (current ++ name) false rest := by
  induction name generalizing current with
  | nil => rw [List.nil_append, List.append_nil]
  | cons c cs ih =>
      rw [List.mem_cons, not_or] at hquote hcomma
      rw [List.cons_append, splitFields, if_neg (Ne.symm hquote.1),
        if_neg (fun hc => hcomma.1 hc.1.symm), ih hquote.2 hcomma.2, List.append_assoc,
        List.singleton_append]

/-- A parameter is read into the field whole. -/
theorem splitFields_param (hquote : '"' ∉ name) (hcomma : ',' ∉ name) (hvalue : '"' ∉ value) :
    splitFields [] false (param name value ++ rest) = splitFields (param name value) false rest := by
  have hstart : param name value ++ rest = (name ++ ['=']) ++ '"' :: (value ++ '"' :: rest) := by
    simp only [param, List.append_assoc, List.cons_append, List.nil_append]
  have hquote' : '"' ∉ name ++ ['='] := by
    rw [List.mem_append, not_or]
    exact ⟨hquote, by decide⟩
  have hcomma' : ',' ∉ name ++ ['='] := by
    rw [List.mem_append, not_or]
    exact ⟨hcomma, by decide⟩
  rw [hstart, splitFields_unquoted hquote' hcomma', splitFields, if_pos rfl, Bool.not_false,
    splitFields_quoted hvalue]
  simp only [param, List.append_assoc, List.nil_append, List.cons_append]

theorem trim_of_ends {c d : Char} {s : Str} (hc : isWhiteSpace c = false) (hd : isWhiteSpace d = false) :
    trim (c :: (s ++ [d])) = c :: (s ++ [d]) := by
  have hends : Trimmed (c :: (s ++ [d])) := by
    constructor
    · intro e he
      obtain rfl := Option.some.inj he
      exact hc
    · intro e he
      rw [← List.cons_append, List.getLast?_concat] at he
      obtain rfl := Option.some.inj he
      exact hd
  exact hends.trim

/-- A rendered value is read as it was. -/
theorem unquote_quoted (value : Str) : unquote (trim ('"' :: (value ++ ['"']))) = value := by
  rw [trim_of_ends (by decide) (by decide)]
  show (if (value ++ ['"']).getLast? = some '"' then (value ++ ['"']).dropLast else _) = value
  rw [if_pos List.getLast?_concat, List.dropLast_concat]

theorem splitFields_param_cons (hquote : '"' ∉ name) (hcomma : ',' ∉ name) (hvalue : '"' ∉ value) :
    splitFields [] false (param name value ++ ',' :: rest) = param name value :: splitFields [] false rest := by
  rw [splitFields_param hquote hcomma hvalue, splitFields, if_neg (by decide), if_pos ⟨rfl, rfl⟩]

theorem splitFields_param_last {c : Char} (hc : isWhiteSpace c = false) (hquote : '"' ∉ c :: name)
    (hcomma : ',' ∉ c :: name) (hvalue : '"' ∉ value) :
    splitFields [] false (param (c :: name) value) = [param (c :: name) value] := by
  have hends : param (c :: name) value = c :: ((name ++ '=' :: '"' :: value) ++ ['"']) := by
    simp only [param, List.append_assoc, List.cons_append]
  have htrim : trim (param (c :: name) value) ≠ [] := by
    rw [hends, trim_of_ends hc (by decide)]
    exact List.cons_ne_nil _ _
  have hwhole : splitFields [] false (param (c :: name) value ++ []) =
      splitFields (param (c :: name) value) false [] := splitFields_param hquote hcomma hvalue
  rw [List.append_nil] at hwhole
  rw [hwhole, splitFields, if_neg htrim]

theorem readField_param (hname : '=' ∉ name) (htrim : trim name = name) :
    readField fields (param name value) = some (
      if name = "origin".toList then { fields with origin := some value }
      else if name = "destination".toList then { fields with destination := some value }
      else if name = "key".toList then { fields with keyId := some value }
      else if name = "sig".toList then { fields with signature := some value }
      else fields) := by
  rw [readField, param, splitOnce_append hname]
  simp only [Option.map_some, htrim, unquote_quoted]

theorem header_of_parts {head dest keyPart sigPart comma quote scheme on dn kn sn : Str}
    (hhead : head = scheme ++ (on ++ ['=', '"'])) (hdest : dest = dn ++ ['=', '"'])
    (hkey : keyPart = kn ++ ['=', '"']) (hsig : sigPart = ['"', ','] ++ (sn ++ ['=', '"']))
    (hcomma : comma = ['"', ',']) (hquote : quote = ['"']) (origin keyId signature : Str)
    (destination : Option Str) :
    (match destination with
      | some destination => head ++ origin ++ comma ++ (dest ++ destination ++ comma)
      | none => head ++ origin ++ comma) ++ (keyPart ++ keyId ++ sigPart ++ signature ++ quote) =
    scheme ++ (param on origin ++ ',' :: (match destination with
      | some destination => param dn destination ++ ',' :: (param kn keyId ++ ',' :: param sn signature)
      | none => param kn keyId ++ ',' :: param sn signature)) := by
  rw [hhead, hdest, hkey, hsig, hcomma, hquote]
  cases destination <;> simp only [param, List.append_assoc, List.cons_append, List.nil_append]

/-- The header at its parameters. -/
theorem toHeader_eq (auth : XMatrixAuth) : auth.toHeader = "X-Matrix ".toList ++
    (param "origin".toList auth.origin ++ ',' :: (match auth.destination with
      | some destination => param "destination".toList destination ++ ',' ::
          (param "key".toList auth.keyId ++ ',' :: param "sig".toList auth.signature)
      | none => param "key".toList auth.keyId ++ ',' :: param "sig".toList auth.signature)) :=
  header_of_parts (by decide +kernel) (by decide +kernel) (by decide +kernel) (by decide +kernel)
    (by decide +kernel) (by decide +kernel) _ _ _ _

theorem stripScheme_header {c : Char} (hc : isWhiteSpace c = false) (rest : Str) :
    stripScheme ("X-Matrix ".toList ++ c :: rest) = some (c :: rest) := by
  have hscheme : "X-Matrix ".toList = ['X', '-', 'M', 'a', 't', 'r', 'i', 'x', ' '] := by decide +kernel
  have hspace : trimStart (' ' :: c :: rest) = c :: rest := by
    rw [trimStart, List.dropWhile_cons_of_pos (by decide), List.dropWhile_cons_of_neg]
    rw [hc]
    exact Bool.false_ne_true
  have hstart : trimStart ("X-Matrix ".toList ++ c :: rest) =
      ['X', '-', 'M', 'a', 't', 'r', 'i', 'x'] ++ ' ' :: c :: rest := by
    rw [hscheme, trimStart, List.cons_append, List.dropWhile_cons_of_neg (by decide)]
    rfl
  have hlower : ['X', '-', 'M', 'a', 't', 'r', 'i', 'x'].map Char.toLower = "x-matrix".toList := by
    decide +kernel
  rw [stripScheme, hstart]
  show (if ['X', '-', 'M', 'a', 't', 'r', 'i', 'x'].map Char.toLower = "x-matrix".toList then
    some (trimStart (' ' :: c :: rest)) else none) = _
  rw [if_pos hlower, hspace]

theorem readField_origin : readField fields (param "origin".toList value) =
    some { fields with origin := some value } := by
  rw [readField_param (by decide) (by decide), if_pos rfl]

theorem readField_destination : readField fields (param "destination".toList value) =
    some { fields with destination := some value } := by
  rw [readField_param (by decide) (by decide), if_neg (by decide), if_pos rfl]

theorem readField_key : readField fields (param "key".toList value) =
    some { fields with keyId := some value } := by
  rw [readField_param (by decide) (by decide), if_neg (by decide), if_neg (by decide), if_pos rfl]

theorem readField_sig : readField fields (param "sig".toList value) =
    some { fields with signature := some value } := by
  rw [readField_param (by decide) (by decide), if_neg (by decide), if_neg (by decide),
    if_neg (by decide), if_pos rfl]

/-- A header whose values have no quotes is read back. -/
theorem parse_toHeader {auth : XMatrixAuth} (horigin : '"' ∉ auth.origin)
    (hdestination : ∀ destination ∈ auth.destination, '"' ∉ destination) (hkey : '"' ∉ auth.keyId)
    (hsig : '"' ∉ auth.signature) : parse auth.toHeader = some auth := by
  have hname : "origin".toList = 'o' :: "rigin".toList := by decide +kernel
  have hlast : splitFields [] false (param "sig".toList auth.signature) =
      [param "sig".toList auth.signature] := by
    have hs : "sig".toList = 's' :: "ig".toList := by decide +kernel
    rw [hs]
    exact splitFields_param_last (by decide) (by decide) (by decide) hsig
  have hend : splitFields [] false (param "key".toList auth.keyId ++ ',' ::
      param "sig".toList auth.signature) =
        [param "key".toList auth.keyId, param "sig".toList auth.signature] := by
    rw [splitFields_param_cons (by decide) (by decide) hkey, hlast]
  have hstrip : ∀ rest : Str, stripScheme ("X-Matrix ".toList ++
      (param "origin".toList auth.origin ++ rest)) = some (param "origin".toList auth.origin ++ rest) := by
    intro rest
    rw [hname]
    exact stripScheme_header (by decide) _
  rw [parse, toHeader_eq, hstrip, Option.bind_eq_bind, Option.bind_some,
    splitFields_param_cons (by decide) (by decide) horigin]
  obtain ⟨origin, destination, keyId, signature⟩ := auth
  cases destination with
  | none =>
      simp only [hend, List.foldlM_cons, readField_origin, readField_key, readField_sig,
        Option.bind_eq_bind, Option.bind_some]
      rfl
  | some destination =>
      have hmore : ∀ rest, splitFields [] false (param "destination".toList destination ++ ',' :: rest) =
          param "destination".toList destination :: splitFields [] false rest :=
        fun rest => splitFields_param_cons (by decide) (by decide) (hdestination destination rfl)
      simp only [hmore, hend, List.foldlM_cons,
        readField_origin, readField_destination, readField_key, readField_sig, Option.bind_eq_bind,
        Option.bind_some]
      rfl

end

end XMatrixAuth

/-- The bytes that a request is signed over: the canonical object of the method, the URI, the two
servers and the parsed content, which is left out where there is none or it does not parse. -/
def signingBytes (method uri origin destination : Str) (content : Option Str) : List UInt8 :=
  let obj := [Json.field "method" (.string method), Json.field "uri" (.string uri),
    Json.field "origin" (.string origin), Json.field "destination" (.string destination)] ++
    (match content.bind fun text => (Json.parse text).toOption with
      | some parsed => [Json.field "content" parsed]
      | none => [])
  utf8Bytes (Json.ofFields obj).write

example : XMatrixAuth.parse "X-Matrix origin=\"a.tld\",destination=\"b.tld\",key=k,sig=\"a,b\"" =
    some ⟨"a.tld".toList, some "b.tld".toList, "k".toList, "a,b".toList⟩ := by decide +kernel

end GaussMatrix.Fed
