import Mathlib.Algebra.Group.Int.Defs
import Mathlib.Data.List.Basic
import Mathlib.Data.String.Basic
import Mathlib.Tactic.Common

/-!
# JSON values and their text

The values of the library that client and server share. An object is a `std::map`, so its keys
ascend. `JsonText` is the library's `dump` and `parse`, of which only the round trip on ASCII is
ever used; `compactText` is one of them.
-/

namespace Cassa

inductive JsonValue where
  | null
  | boolean (b : Bool)
  | number (n : Int)
  /-- a number with a fraction or an exponent, by what a conversion to an integer makes of it -/
  | float (whole : Int)
  | string (s : String)
  | array (items : List JsonValue)
  | object (fields : List (String × JsonValue))

/-- `isascii` of every character. -/
def isAscii (str : String) : Bool := str.toList.all fun c => c.toNat < 128

namespace JsonValue

mutual

/-- ASCII strings, integers of 64 bits, and objects that a `std::map` can hold. -/
def plain : JsonValue → Bool
  | .null => true
  | .boolean _ => true
  | .number n => -2 ^ 63 ≤ n && n < 2 ^ 64
  | .float _ => false
  | .string s => isAscii s
  | .array items => plainItems items
  | .object fields => plainFields fields && decide ((fields.map Prod.fst).Pairwise (· < ·))

def plainItems : List JsonValue → Bool
  | [] => true
  | item :: items => plain item && plainItems items

def plainFields : List (String × JsonValue) → Bool
  | [] => true
  | field :: fields => isAscii field.1 && plain field.2 && plainFields fields

end

theorem plainItems_iff {items : List JsonValue} :
    plainItems items = true ↔ ∀ item ∈ items, item.plain = true := by
  induction items with
  | nil => simp [plainItems]
  | cons item items ih => simp [plainItems, ih]

theorem plainFields_iff {fields : List (String × JsonValue)} :
    plainFields fields = true ↔ ∀ field ∈ fields, isAscii field.1 = true ∧ field.2.plain = true := by
  induction fields with
  | nil => simp [plainFields]
  | cons field fields ih => simp [plainFields, ih]

theorem plain_object {fields : List (String × JsonValue)}
    (hkeys : ((fields.map Prod.fst).all isAscii && decide ((fields.map Prod.fst).Pairwise (· < ·))) = true)
    (hvalues : ∀ field ∈ fields, field.2.plain = true) : (JsonValue.object fields).plain = true := by
  rw [Bool.and_eq_true, List.all_map, List.all_eq_true] at hkeys
  rw [plain, plainFields_iff.mpr fun field hfield => ⟨hkeys.1 field hfield, hvalues field hfield⟩, hkeys.2]
  rfl

/-- `operator[]` with a key. `none` stands for the null that any conversion refuses, and for the
assertion on a constant object. -/
def get? (j : JsonValue) (key : String) : Option JsonValue :=
  match j with
  | .object fields => fields.lookup key
  | _ => none

def toString? : JsonValue → Option String
  | .string s => some s
  | _ => none

/-- `get<long int>`. -/
def toInt? : JsonValue → Option Int
  | .number n => some (n.bmod (2 ^ 64))
  | .float whole => some (whole.bmod (2 ^ 64))
  | _ => none

/-- `get<uint64_t>`. -/
def toUInt64? : JsonValue → Option Nat
  | .number n => some (n % 2 ^ 64).toNat
  | .float whole => some (whole % 2 ^ 64).toNat
  | _ => none

def toBool? : JsonValue → Option Bool
  | .boolean b => some b
  | _ => none

/-- What a range-based loop visits. -/
def elements : JsonValue → List JsonValue
  | .null => []
  | .array items => items
  | .object fields => fields.map Prod.snd
  | j => [j]

/-- `j[key] = value` on an object. -/
def set (j : JsonValue) (key : String) (value : JsonValue) : JsonValue :=
  match j with
  | .object fields => .object (insert fields)
  | _ => j
where
  insert : List (String × JsonValue) → List (String × JsonValue)
    | [] => [(key, value)]
    | (k, v) :: fields =>
      if key < k then (key, value) :: (k, v) :: fields
      else if key = k then (key, value) :: fields
      else (k, v) :: insert fields

/-- The object of an initializer list. -/
def ofList (fields : List (String × JsonValue)) : JsonValue :=
  fields.foldl (fun j field => j.set field.1 field.2) (.object [])

def push_back (j item : JsonValue) : JsonValue :=
  match j with
  | .array items => .array (items ++ [item])
  | _ => j

end JsonValue

/-- The library's `dump` and `parse`; `none` is an exception. -/
structure JsonText where
  dump : JsonValue → String
  parse : String → Option JsonValue
  round_trip : ∀ j : JsonValue, j.plain = true → parse (dump j) = some j

namespace CompactText

def hexDigit (n : Nat) : Char := if n < 10 then Char.ofNat (48 + n) else Char.ofNat (87 + n)

def hexValue (c : Char) : Nat := if c.toNat < 58 then c.toNat - 48 else c.toNat - 87

def quote : Char := '\x22'

def backslash : Char := '\x5c'

/-- The characters with an escape of their own, and what follows the backslash. -/
def shortEscapes : List (Char × Char) :=
  [(quote, quote), (backslash, backslash), ('\x08', 'b'), ('\x0c', 'f'), ('\n', 'n'), ('\r', 'r'), ('\t', 't')]

def escape (c : Char) : List Char :=
  match shortEscapes.lookup c with
  | some e => [backslash, e]
  | none =>
    if c.toNat < 32 then [backslash, 'u', '0', '0', hexDigit (c.toNat / 16), hexDigit (c.toNat % 16)]
    else [c]

/-- One character of a string, or its closing quote. -/
def readChar : List Char → Option (Option Char × List Char)
  | [] => none
  | c :: rest =>
    if c = quote then some (none, rest)
    else if c = backslash then
      match rest with
      | [] => none
      | e :: rest =>
        if e = 'u' then
          match rest with
          | _ :: _ :: hi :: lo :: rest => some (some (Char.ofNat (16 * hexValue hi + hexValue lo)), rest)
          | _ => none
        else match (shortEscapes.map Prod.swap).lookup e with
          | none => none
          | some c => some (some c, rest)
    else some (some c, rest)

/-- The rest of a string, with its closing quote. -/
def dumpChars (cs : List Char) : List Char := cs.flatMap escape ++ [quote]

def parseChars : Nat → List Char → Option (List Char × List Char)
  | 0, _ => none
  | fuel + 1, text =>
    match readChar text with
    | none => none
    | some (none, rest) => some ([], rest)
    | some (some c, rest) => (parseChars fuel rest).map fun p => (c :: p.1, p.2)

def digits (n : Nat) : List Char :=
  if n < 10 then [Char.ofNat (48 + n)] else digits (n / 10) ++ [Char.ofNat (48 + n % 10)]

def isDigit (c : Char) : Bool := 48 ≤ c.toNat && c.toNat < 58

def digitsValue (cs : List Char) : Nat := cs.foldl (fun n c => 10 * n + (c.toNat - 48)) 0

def parseDigits (text : List Char) : Nat × List Char :=
  (digitsValue (text.takeWhile isDigit), text.dropWhile isDigit)

def parseWord (word : List Char) (j : JsonValue) (text : List Char) : Option (JsonValue × List Char) :=
  if text.take word.length = word then some (j, text.drop word.length) else none

mutual

def dumpValue : JsonValue → List Char
  | .null => ['n', 'u', 'l', 'l']
  | .boolean true => ['t', 'r', 'u', 'e']
  | .boolean false => ['f', 'a', 'l', 's', 'e']
  | .number (.ofNat n) => digits n
  | .number (.negSucc n) => '-' :: digits (n + 1)
  | .float whole => digits whole.toNat ++ ['.', '0']
  | .string s => quote :: dumpChars s.toList
  | .array [] => ['[', ']']
  | .array (item :: items) => '[' :: (dumpValue item ++ dumpItems items)
  | .object [] => ['\x7b', '\x7d']
  | .object (field :: fields) =>
    '\x7b' :: quote :: (dumpChars field.1.toList ++ ':' :: (dumpValue field.2 ++ dumpFields fields))

/-- The items after the first one. -/
def dumpItems : List JsonValue → List Char
  | [] => [']']
  | item :: items => ',' :: (dumpValue item ++ dumpItems items)

def dumpFields : List (String × JsonValue) → List Char
  | [] => ['\x7d']
  | field :: fields =>
    ',' :: quote :: (dumpChars field.1.toList ++ ':' :: (dumpValue field.2 ++ dumpFields fields))

end

mutual

def parseValue : Nat → List Char → Option (JsonValue × List Char)
  | 0, _ => none
  | _ + 1, [] => none
  | fuel + 1, c :: rest =>
    if c = 'n' then parseWord ['u', 'l', 'l'] .null rest
    else if c = 't' then parseWord ['r', 'u', 'e'] (.boolean true) rest
    else if c = 'f' then parseWord ['a', 'l', 's', 'e'] (.boolean false) rest
    else if c = '-' then some (.number (-(parseDigits rest).1), (parseDigits rest).2)
    else if isDigit c then some (.number (parseDigits (c :: rest)).1, (parseDigits (c :: rest)).2)
    else if c = quote then (parseChars rest.length rest).map fun p => (.string (String.ofList p.1), p.2)
    else if c = '[' then
      if rest.head? = some ']' then some (.array [], rest.tail)
      else do
        let (item, rest) ← parseValue fuel rest
        let (items, rest) ← parseItems fuel rest
        some (.array (item :: items), rest)
    else if c = '\x7b' then
      if rest.head? = some '\x7d' then some (.object [], rest.tail)
      else do
        let (field, rest) ← parseField fuel rest
        let (fields, rest) ← parseFields fuel rest
        some (.object (field :: fields), rest)
    else none

def parseItems : Nat → List Char → Option (List JsonValue × List Char)
  | 0, _ => none
  | _ + 1, [] => none
  | fuel + 1, c :: rest =>
    if c = ']' then some ([], rest)
    else if c = ',' then do
      let (item, rest) ← parseValue fuel rest
      let (items, rest) ← parseItems fuel rest
      some (item :: items, rest)
    else none

/-- A key in quotes, a colon and a value. -/
def parseField : Nat → List Char → Option ((String × JsonValue) × List Char)
  | 0, _ => none
  | _ + 1, [] => none
  | fuel + 1, c :: rest =>
    if c = quote then do
      let (key, rest) ← parseChars rest.length rest
      if rest.head? = some ':' then
        let (value, rest) ← parseValue fuel rest.tail
        some ((String.ofList key, value), rest)
      else none
    else none

def parseFields : Nat → List Char → Option (List (String × JsonValue) × List Char)
  | 0, _ => none
  | _ + 1, [] => none
  | fuel + 1, c :: rest =>
    if c = '\x7d' then some ([], rest)
    else if c = ',' then do
      let (field, rest) ← parseField fuel rest
      let (fields, rest) ← parseFields fuel rest
      some (field :: fields, rest)
    else none

end

theorem hexValue_hexDigit : ∀ n < 16, hexValue (hexDigit n) = n := by decide

theorem escape_ne_nil (c : Char) : 1 ≤ (escape c).length := by
  unfold escape
  split
  · simp
  split <;> simp

theorem shortEscapes_inverse : ∀ p ∈ shortEscapes, p.2 ≠ 'u' ∧
    (shortEscapes.map Prod.swap).lookup p.2 = some p.1 := by decide

/-- An escaped character reads back as itself. -/
theorem readChar_escape {c : Char} (rest : List Char) :
    readChar (escape c ++ rest) = some (some c, rest) := by
  unfold escape
  split
  · rename_i e he
    obtain ⟨l₁, l₂, hl, -⟩ := List.lookup_eq_some_iff.mp he
    obtain ⟨hu, hback⟩ := shortEscapes_inverse (c, e) (by simp [hl])
    have hne : backslash ≠ quote := by decide
    simp only [List.cons_append, List.nil_append, readChar, if_neg hne, if_true, if_neg hu, hback]
  · rename_i hnone
    split
    · rename_i hcontrol
      have hhi := hexValue_hexDigit (c.toNat / 16) (by omega)
      have hlo := hexValue_hexDigit (c.toNat % 16) (by omega)
      have hc : Char.ofNat (16 * (c.toNat / 16) + c.toNat % 16) = c := by
        rw [Nat.div_add_mod]
        exact Char.ofNat_toNat c
      simp [readChar, backslash, quote, hhi, hlo, hc]
    · have hquote : c ≠ quote := by
        rintro rfl
        cases hnone
      have hback : c ≠ backslash := by
        rintro rfl
        cases hnone
      simp [readChar, hquote, hback]

theorem readChar_quote (rest : List Char) : readChar (quote :: rest) = some (none, rest) := by
  simp [readChar]

theorem parseChars_dump (cs rest : List Char) {fuel : Nat} (hfuel : cs.length < fuel) :
    parseChars fuel (dumpChars cs ++ rest) = some (cs, rest) := by
  induction cs generalizing fuel with
  | nil =>
    obtain ⟨fuel, rfl⟩ : ∃ n, fuel = n + 1 := Nat.exists_eq_succ_of_ne_zero (Nat.ne_zero_of_lt hfuel)
    simp [parseChars, dumpChars, readChar_quote]
  | cons c cs ih =>
    obtain ⟨fuel, rfl⟩ : ∃ n, fuel = n + 1 := Nat.exists_eq_succ_of_ne_zero (by omega)
    have htext : dumpChars (c :: cs) ++ rest = escape c ++ (dumpChars cs ++ rest) := by
      simp [dumpChars]
    rw [parseChars, htext, readChar_escape]
    have hrest : parseChars fuel (dumpChars cs ++ rest) = some (cs, rest) := ih (by simpa using hfuel)
    simp [hrest]

theorem length_dumpChars (cs : List Char) : cs.length < (dumpChars cs).length := by
  induction cs with
  | nil => decide
  | cons c cs ih =>
    have hc := escape_ne_nil c
    simp only [dumpChars, List.flatMap_cons, List.length_append, List.length_cons] at ih ⊢
    omega

theorem toNat_digit : ∀ {n : Nat}, n < 10 → (Char.ofNat (48 + n)).toNat = 48 + n := by decide

theorem isDigit_digit {n : Nat} (hn : n < 10) : isDigit (Char.ofNat (48 + n)) = true := by
  rw [isDigit, toNat_digit hn]
  simp only [Bool.and_eq_true, decide_eq_true_eq]
  omega

theorem isDigit_digits (n : Nat) : ∀ c ∈ digits n, isDigit c = true := by
  induction n using digits.induct with
  | case1 n hn =>
    rw [digits, if_pos hn]
    intro c hc
    rw [List.mem_singleton.mp hc]
    exact isDigit_digit hn
  | case2 n hn ih =>
    rw [digits, if_neg hn]
    intro c hc
    rcases List.mem_append.mp hc with hc | hc
    · exact ih c hc
    · rw [List.mem_singleton.mp hc]
      exact isDigit_digit (Nat.mod_lt _ (by decide))

theorem digitsValue_digits (n : Nat) : digitsValue (digits n) = n := by
  induction n using digits.induct with
  | case1 n hn =>
    rw [digits, if_pos hn, digitsValue, List.foldl_cons, List.foldl_nil, toNat_digit hn]
    omega
  | case2 n hn ih =>
    rw [digits, if_neg hn, digitsValue, List.foldl_append, ← digitsValue, ih, List.foldl_cons, List.foldl_nil,
      toNat_digit (Nat.mod_lt _ (by decide))]
    omega

theorem digits_cons (n : Nat) : ∃ c cs, digits n = c :: cs ∧ isDigit c = true := by
  cases hd : digits n with
  | nil =>
    rw [digits] at hd
    split at hd <;> simp at hd
  | cons c cs => exact ⟨c, cs, rfl, isDigit_digits n c (by simp [hd])⟩

/-- What may follow a value: nothing, or a character that is no digit. -/
def Delimited (rest : List Char) : Prop := ∀ c, rest.head? = some c → isDigit c = false

theorem parseDigits_digits (n : Nat) {rest : List Char} (hrest : Delimited rest) :
    parseDigits (digits n ++ rest) = (n, rest) := by
  have hall := isDigit_digits n
  have htake : rest.takeWhile isDigit = [] ∧ rest.dropWhile isDigit = rest := by
    cases rest with
    | nil => exact ⟨rfl, rfl⟩
    | cons c cs =>
      have hc := hrest c rfl
      simp [hc]
  rw [parseDigits, List.takeWhile_append_of_pos hall, List.dropWhile_append_of_pos hall, htake.1, htake.2,
    List.append_nil, digitsValue_digits]

theorem ne_of_isDigit {c d : Char} (hc : isDigit c = true) (hd : isDigit d = false) : c ≠ d := by
  rintro rfl
  rw [hc] at hd
  cases hd

theorem dumpValue_cons (j : JsonValue) : ∃ c cs, dumpValue j = c :: cs ∧ c ≠ ']' := by
  match j with
  | .null => exact ⟨_, _, rfl, by decide⟩
  | .boolean true => exact ⟨_, _, rfl, by decide⟩
  | .boolean false => exact ⟨_, _, rfl, by decide⟩
  | .number (.ofNat n) =>
    obtain ⟨c, cs, hd, hc⟩ := digits_cons n
    exact ⟨c, cs, hd, ne_of_isDigit hc (by decide)⟩
  | .number (.negSucc n) => exact ⟨_, _, rfl, by decide⟩
  | .float whole =>
    obtain ⟨c, cs, hd, hc⟩ := digits_cons whole.toNat
    exact ⟨c, cs ++ ['.', '0'], by rw [dumpValue, hd, List.cons_append], ne_of_isDigit hc (by decide)⟩
  | .string s => exact ⟨_, _, rfl, by decide⟩
  | .array [] => exact ⟨_, _, rfl, by decide⟩
  | .array (item :: items) => exact ⟨_, _, by rw [dumpValue], by decide⟩
  | .object [] => exact ⟨_, _, rfl, by decide⟩
  | .object (field :: fields) => exact ⟨_, _, by rw [dumpValue], by decide⟩

theorem delimited_cons {c : Char} (rest : List Char) (hc : isDigit c = false) : Delimited (c :: rest) := by
  intro d hd
  rw [← Option.some.inj hd]
  exact hc

theorem delimited_items (items : List JsonValue) (rest : List Char) : Delimited (dumpItems items ++ rest) := by
  cases items with
  | nil => exact delimited_cons _ (by decide)
  | cons item items =>
    rw [dumpItems]
    exact delimited_cons _ (by decide)

theorem delimited_fields (fields : List (String × JsonValue)) (rest : List Char) :
    Delimited (dumpFields fields ++ rest) := by
  cases fields with
  | nil => exact delimited_cons _ (by decide)
  | cons field fields =>
    rw [dumpFields]
    exact delimited_cons _ (by decide)

theorem length_dumpItems (items : List JsonValue) : 1 ≤ (dumpItems items).length := by
  cases items <;> simp [dumpItems]

theorem length_dumpFields (fields : List (String × JsonValue)) : 1 ≤ (dumpFields fields).length := by
  cases fields <;> simp [dumpFields]

theorem parseValue_number {n : Int} {rest : List Char} (hrest : Delimited rest) {fuel : Nat}
    (hfuel : 0 < fuel) : parseValue fuel (dumpValue (.number n) ++ rest) = some (.number n, rest) := by
  obtain ⟨fuel, rfl⟩ : ∃ m, fuel = m + 1 := Nat.exists_eq_succ_of_ne_zero (Nat.ne_of_gt hfuel)
  cases n with
  | ofNat n =>
    obtain ⟨c, cs, hd, hc⟩ := digits_cons n
    have hparse := parseDigits_digits n hrest
    rw [dumpValue, hd] at *
    rw [List.cons_append] at hparse ⊢
    have hn : c ≠ 'n' := ne_of_isDigit hc (by decide)
    have ht : c ≠ 't' := ne_of_isDigit hc (by decide)
    have hf : c ≠ 'f' := ne_of_isDigit hc (by decide)
    have hm : c ≠ '-' := ne_of_isDigit hc (by decide)
    simp [parseValue, hn, ht, hf, hm, hc, hparse]
  | negSucc n =>
    have hparse := parseDigits_digits (n + 1) hrest
    have hneg : (Int.negSucc n) = -((n + 1 : Nat) : Int) := rfl
    simp [dumpValue, parseValue, hparse, hneg]

theorem parseChars_text (cs rest : List Char) :
    parseChars (dumpChars cs ++ rest).length (dumpChars cs ++ rest) = some (cs, rest) := by
  refine parseChars_dump cs rest ?_
  have hlen := length_dumpChars cs
  rw [List.length_append]
  omega

theorem parseValue_quote (fuel : Nat) (rest : List Char) :
    parseValue (fuel + 1) (quote :: rest) =
      (parseChars rest.length rest).map fun p => (.string (String.ofList p.1), p.2) := rfl

theorem parseValue_bracket (fuel : Nat) {rest : List Char} (hrest : rest.head? ≠ some ']') :
    parseValue (fuel + 1) ('[' :: rest) = (parseValue fuel rest).bind fun p =>
      (parseItems fuel p.2).map fun q => (.array (p.1 :: q.1), q.2) := by
  change (if rest.head? = some ']' then _ else _) = _
  rw [if_neg hrest]
  cases parseValue fuel rest with
  | none => rfl
  | some p => cases h : parseItems fuel p.2 <;> simp [h]

theorem parseValue_brace (fuel : Nat) {rest : List Char} (hrest : rest.head? ≠ some '\x7d') :
    parseValue (fuel + 1) ('\x7b' :: rest) = (parseField fuel rest).bind fun p =>
      (parseFields fuel p.2).map fun q => (.object (p.1 :: q.1), q.2) := by
  change (if rest.head? = some '\x7d' then _ else _) = _
  rw [if_neg hrest]
  cases parseField fuel rest with
  | none => rfl
  | some p => cases h : parseFields fuel p.2 <;> simp [h]

theorem parseItems_comma (fuel : Nat) (rest : List Char) :
    parseItems (fuel + 1) (',' :: rest) = (parseValue fuel rest).bind fun p =>
      (parseItems fuel p.2).map fun q => (p.1 :: q.1, q.2) := by
  change (parseValue fuel rest).bind _ = _
  cases parseValue fuel rest with
  | none => rfl
  | some p => cases h : parseItems fuel p.2 <;> simp [h]

theorem parseFields_comma (fuel : Nat) (rest : List Char) :
    parseFields (fuel + 1) (',' :: rest) = (parseField fuel rest).bind fun p =>
      (parseFields fuel p.2).map fun q => (p.1 :: q.1, q.2) := by
  change (parseField fuel rest).bind _ = _
  cases parseField fuel rest with
  | none => rfl
  | some p => cases h : parseFields fuel p.2 <;> simp [h]

theorem parseField_text (fuel : Nat) (key : String) (rest : List Char) :
    parseField (fuel + 1) (quote :: (dumpChars key.toList ++ ':' :: rest)) =
      (parseValue fuel rest).map fun p => ((key, p.1), p.2) := by
  change (parseChars _ _).bind _ = _
  rw [parseChars_text, Option.bind_some]
  cases h : parseValue fuel rest <;> simp [h]

mutual

/-- The value is read back, and nothing of what follows it. -/
theorem parseValue_dump (j : JsonValue) (hplain : j.plain = true) {fuel : Nat} (hfuel : (dumpValue j).length ≤ fuel) {rest : List Char}
    (hrest : Delimited rest) : parseValue fuel (dumpValue j ++ rest) = some (j, rest) := by
  obtain ⟨c, cs, hcs, -⟩ := dumpValue_cons j
  obtain ⟨fuel, rfl⟩ : ∃ m, fuel = m + 1 := by
    refine Nat.exists_eq_succ_of_ne_zero ?_
    rw [hcs, List.length_cons] at hfuel
    omega
  match j with
  | .null => rfl
  | .boolean true => rfl
  | .boolean false => rfl
  | .number n => exact parseValue_number hrest (Nat.succ_pos fuel)
  | .float whole => cases hplain
  | .string s =>
    rw [dumpValue, List.cons_append, parseValue_quote, parseChars_text, Option.map_some, String.ofList_toList]
  | .array [] => rfl
  | .array (item :: items) =>
    rw [JsonValue.plain, JsonValue.plainItems, Bool.and_eq_true] at hplain
    obtain ⟨d, ds, hds, hd⟩ := dumpValue_cons item
    have hhead : (dumpValue item ++ (dumpItems items ++ rest)).head? ≠ some ']' := by
      rw [hds]
      exact fun h => hd (Option.some.inj h)
    rw [dumpValue, List.length_cons, List.length_append] at hfuel
    have hlen := length_dumpItems items
    rw [dumpValue, List.cons_append, List.append_assoc, parseValue_bracket fuel hhead,
      parseValue_dump item hplain.1 (by omega) (delimited_items items rest), Option.bind_some,
      parseItems_dump items hplain.2 (by omega), Option.map_some]
  | .object [] => rfl
  | .object ((key, value) :: fields) =>
    rw [JsonValue.plain, JsonValue.plainFields, Bool.and_eq_true, Bool.and_eq_true, Bool.and_eq_true] at hplain
    rw [dumpValue, List.length_cons, List.length_cons, List.length_append, List.length_cons, List.length_append] at hfuel
    dsimp only at hfuel
    have hlen := length_dumpFields fields
    obtain ⟨fuel, rfl⟩ : ∃ m, fuel = m + 1 := Nat.exists_eq_succ_of_ne_zero (by omega)
    have hvalue := parseValue_dump value hplain.1.1.2 (show _ ≤ fuel by omega) (delimited_fields fields rest)
    have hfields := parseFields_dump fields hplain.1.2 (show _ ≤ fuel + 1 by omega) rest
    simp only [dumpValue, List.cons_append, List.append_assoc]
    rw [parseValue_brace (fuel + 1) (by simp [quote]), parseField_text, hvalue, Option.map_some, Option.bind_some,
      hfields, Option.map_some]

theorem parseItems_dump (items : List JsonValue) (hplain : JsonValue.plainItems items = true) {fuel : Nat} (hfuel : (dumpItems items).length ≤ fuel)
    (rest : List Char) : parseItems fuel (dumpItems items ++ rest) = some (items, rest) := by
  have hlen := length_dumpItems items
  obtain ⟨fuel, rfl⟩ : ∃ m, fuel = m + 1 := Nat.exists_eq_succ_of_ne_zero (by omega)
  match items with
  | [] => rfl
  | item :: items =>
    rw [JsonValue.plainItems, Bool.and_eq_true] at hplain
    rw [dumpItems, List.length_cons, List.length_append] at hfuel
    have hmore := length_dumpItems items
    rw [dumpItems, List.cons_append, List.append_assoc, parseItems_comma,
      parseValue_dump item hplain.1 (by omega) (delimited_items items rest), Option.bind_some,
      parseItems_dump items hplain.2 (by omega), Option.map_some]

theorem parseFields_dump (fields : List (String × JsonValue)) (hplain : JsonValue.plainFields fields = true)
    {fuel : Nat} (hfuel : (dumpFields fields).length ≤ fuel) (rest : List Char) :
    parseFields fuel (dumpFields fields ++ rest) = some (fields, rest) := by
  have hlen := length_dumpFields fields
  obtain ⟨fuel, rfl⟩ : ∃ m, fuel = m + 1 := Nat.exists_eq_succ_of_ne_zero (by omega)
  match fields with
  | [] => rfl
  | (key, value) :: fields =>
    rw [JsonValue.plainFields, Bool.and_eq_true, Bool.and_eq_true] at hplain
    rw [dumpFields, List.length_cons, List.length_cons, List.length_append, List.length_cons, List.length_append] at hfuel
    dsimp only at hfuel
    have hmore := length_dumpFields fields
    obtain ⟨fuel, rfl⟩ : ∃ m, fuel = m + 1 := Nat.exists_eq_succ_of_ne_zero (by omega)
    have hvalue := parseValue_dump value hplain.1.2 (show _ ≤ fuel by omega) (delimited_fields fields rest)
    have hfields := parseFields_dump fields hplain.2 (show _ ≤ fuel + 1 by omega) rest
    simp only [dumpFields, List.cons_append, List.append_assoc]
    rw [parseFields_comma (fuel + 1), parseField_text, hvalue, Option.map_some, Option.bind_some, hfields,
      Option.map_some]

end

def dump (j : JsonValue) : String := String.ofList (dumpValue j)

def parse (text : String) : Option JsonValue :=
  match parseValue text.toList.length text.toList with
  | some (j, []) => some j
  | _ => none

theorem parse_dump (j : JsonValue) (hplain : j.plain = true) : parse (dump j) = some j := by
  have hread := parseValue_dump j hplain (Nat.le_refl _) (show Delimited [] from nofun)
  rw [List.append_nil] at hread
  rw [parse, dump, String.toList_ofList, hread]

end CompactText

def compactText : JsonText := ⟨CompactText.dump, CompactText.parse, CompactText.parse_dump⟩

end Cassa
