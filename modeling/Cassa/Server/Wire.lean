import Cassa.Client.Commands
import Cassa.Server.FailedRequests

/-!
# Requests on the wire

`json_to_procedures` from the text that has arrived. On the text of a request it does what the
functions on requests say, and the text of accepted commands is the text of a request with one
operation for each of them.
-/

namespace Cassa.Server.Wire

open Cassa.SiloCC Cassa.SiloCC.Serial Cassa.Client

variable {W : Type} [DecidableEq W]

def getString (j : JsonValue) (key : String) : Option String := (j.get? key).bind JsonValue.toString?

def getBool (j : JsonValue) (key : String) : Option Bool := (j.get? key).bind JsonValue.toBool?

/-- `value("value", "")`. -/
def getValue (operation : JsonValue) : Option String :=
  match operation.get? "value" with
  | none => some ""
  | some value => value.toString?

/-- The body of the loop. The inner `none` is an unknown operation, the outer one an exception. -/
def decodeOperation (operation : JsonValue) : Option (Option (Procedure String String)) := do
  let operation_str ← getString operation "operation"
  if operation_str = "SCAN" then
    let left_key ← getString operation "left_key"
    let l_exclusive ← getBool operation "l_exclusive"
    let right_key ← getString operation "right_key"
    let r_exclusive ← getBool operation "r_exclusive"
    some (some (.SCAN left_key l_exclusive right_key r_exclusive))
  else if operation_str ∈ ["INSERT", "DELETE", "READ", "WRITE"] then
    let key_str ← getString operation "key"
    let value_str ← getValue operation
    if operation_str = "INSERT" then some (some (.INSERT key_str value_str))
    else if operation_str = "DELETE" then some (some (.DELETE key_str))
    else if operation_str = "READ" then some (some (.READ key_str))
    else some (some (.WRITE key_str value_str))
  else some none

def decodeOperations : List JsonValue → Option (List (Procedure String String) × Bool)
  | [] => some ([], true)
  | operation :: operations => do
    match ← decodeOperation operation with
    | none => some ([], false)
    | some p =>
      let (procedures, known) ← decodeOperations operations
      some (p :: procedures, known)

/-- `none` is an exception of the library. -/
def json_to_procedures (text : JsonText) (s : State W String) (x : Executor String) (json_str : String) :
    Option (Int × State W String × Executor String) := do
  let json ← text.parse json_str
  let client_session_id ← getString json "client_sessionID"
  let timestamp_sec ← (← json.get? "timestamp_sec").toInt?
  let timestamp_nsec ← (← json.get? "timestamp_nsec").toInt?
  let x := { x with session_id_ := client_session_id }
  if compare_timestamps timestamp_sec timestamp_nsec (s.getTimestampSec client_session_id)
      (s.getTimestampNsec client_session_id) ≤ 0 then some (-1, s, x)
  else
    let s := s.setTimestamp client_session_id timestamp_sec timestamp_nsec
    -- a request without this field has no operations
    let (procedures, known) ← decodeOperations ((json.get? "transaction").getD .null).elements
    some (if known then 0 else -2, s, { x with pro_set_ := procedures })

/-- The JSON object of an operation with the fields that its kind has. -/
def operationJson (o : Operation) : JsonValue :=
  if o.operation = "SCAN" then
    .object [("l_exclusive", .boolean o.l_exclusive), ("left_key", .string o.left_key),
      ("operation", .string o.operation), ("r_exclusive", .boolean o.r_exclusive),
      ("right_key", .string o.right_key)]
  else match o.value with
    | none => .object [("key", .string o.key), ("operation", .string o.operation)]
    | some value =>
      .object [("key", .string o.key), ("operation", .string o.operation), ("value", .string value)]

def requestJson (r : Request String) : JsonValue :=
  .object [("client_sessionID", .string r.client_sessionID), ("timestamp_nsec", .number r.timestamp_nsec),
    ("timestamp_sec", .number r.timestamp_sec), ("transaction", .array (r.transaction.map operationJson))]

theorem decodeOperation_operationJson (o : Operation) :
    decodeOperation (operationJson o) = some o.toProcedure := by
  obtain ⟨operation, key, value, left_key, l_exclusive, right_key, r_exclusive⟩ := o
  by_cases hscan : operation = "SCAN"
  · subst hscan
    rfl
  · have hobject : ∃ fields, operationJson ⟨operation, key, value, left_key, l_exclusive, right_key, r_exclusive⟩ =
        .object fields ∧ getString (.object fields) "operation" = some operation ∧
        getString (.object fields) "key" = some key ∧ getValue (.object fields) = some (value.getD "") := by
      rw [operationJson, if_neg hscan]
      cases value <;> exact ⟨_, rfl, rfl, rfl, rfl⟩
    obtain ⟨fields, hfields, hoperation, hkey, hvalue⟩ := hobject
    rw [hfields, decodeOperation, hoperation]
    simp only [Option.bind_eq_bind, Option.bind_some, if_neg hscan, hkey, hvalue, Operation.toProcedure]
    by_cases hi : operation = "INSERT"
    · subst hi
      rfl
    by_cases hd : operation = "DELETE"
    · subst hd
      rfl
    by_cases hr : operation = "READ"
    · subst hr
      rfl
    by_cases hw : operation = "WRITE"
    · subst hw
      rfl
    · simp [hi, hd, hr, hw]

theorem decodeOperations_map (os : List Operation) :
    decodeOperations (os.map operationJson) = some (convertOperations os) := by
  induction os with
  | nil => rfl
  | cons o os ih =>
    rw [List.map_cons, decodeOperations, decodeOperation_operationJson, convertOperations, ih]
    cases o.toProcedure <;> rfl

/-- A timestamp that is a `long int`. -/
def IsLong (n : Int) : Prop := -2 ^ 63 ≤ n ∧ n < 2 ^ 63

theorem IsLong.bmod {n : Int} (h : IsLong n) : n.bmod (2 ^ 64) = n := by
  apply Int.bmod_eq_of_le
  · exact h.1
  · exact h.2

omit [DecidableEq W] in
/-- The text of a request is answered as the request is. -/
theorem json_to_procedures_dump (text : JsonText) (s : State W String) (x : Executor String) {r : Request String}
    (hplain : (requestJson r).plain = true) (hsec : IsLong r.timestamp_sec) (hnsec : IsLong r.timestamp_nsec) :
    json_to_procedures text s x (text.dump (requestJson r)) = some (Server.json_to_procedures s x r) := by
  have hparse : text.parse (text.dump (requestJson r)) = some (requestJson r) := text.round_trip _ hplain
  have hid : getString (requestJson r) "client_sessionID" = some r.client_sessionID := rfl
  have hs : (requestJson r).get? "timestamp_sec" = some (.number r.timestamp_sec) := rfl
  have hn : (requestJson r).get? "timestamp_nsec" = some (.number r.timestamp_nsec) := rfl
  have ht : (requestJson r).get? "transaction" = some (.array (r.transaction.map operationJson)) := rfl
  rw [json_to_procedures, hparse, Server.json_to_procedures]
  simp only [Option.bind_eq_bind, Option.bind_some, hid, hs, hn, ht, JsonValue.toInt?, hsec.bmod, hnsec.bmod,
    Option.getD_some, JsonValue.elements, decodeOperations_map]
  split
  · rfl
  · rcases convertOperations r.transaction with ⟨procedures, _ | _⟩ <;> rfl

/-- The words that spell a procedure. -/
def spelling : Procedure String String → List String
  | .INSERT key_ value_ => ["INSERT", key_, value_]
  | .WRITE key_ value_ => ["WRITE", key_, value_]
  | .READ key_ => ["READ", key_]
  | .DELETE key_ => ["DELETE", key_]
  | .SCAN left_key_ l_exclusive_ right_key_ r_exclusive_ =>
    ["SCAN", left_key_, toString l_exclusive_, right_key_, toString r_exclusive_]

/-- The operation that a client sends for a procedure. -/
def operationOf : Procedure String String → Operation
  | .INSERT key_ value_ => ⟨"INSERT", key_, some value_, "", false, "", false⟩
  | .WRITE key_ value_ => ⟨"WRITE", key_, some value_, "", false, "", false⟩
  | .READ key_ => ⟨"READ", key_, none, "", false, "", false⟩
  | .DELETE key_ => ⟨"DELETE", key_, none, "", false, "", false⟩
  | .SCAN left_key_ l_exclusive_ right_key_ r_exclusive_ =>
    ⟨"SCAN", "", none, left_key_, l_exclusive_, right_key_, r_exclusive_⟩

theorem toProcedure_operationOf (p : Procedure String String) : (operationOf p).toProcedure = some p := by
  cases p <;> rfl

theorem convertOperations_operationOf (ps : List (Procedure String String)) :
    convertOperations (ps.map operationOf) = (ps, true) := by
  induction ps with
  | nil => rfl
  | cons p ps ih => rw [List.map_cons, convertOperations, toProcedure_operationOf, ih]

theorem plain_operationJson {o : Operation} (hop : isAscii o.operation = true) (hkey : isAscii o.key = true)
    (hvalue : ∀ value, o.value = some value → isAscii value = true) (hleft : isAscii o.left_key = true)
    (hright : isAscii o.right_key = true) : (operationJson o).plain = true := by
  rw [operationJson]
  split
  · have hkeys : (["l_exclusive", "left_key", "operation", "r_exclusive", "right_key"].all isAscii &&
        decide (["l_exclusive", "left_key", "operation", "r_exclusive", "right_key"].Pairwise (· < ·))) = true := by
      decide
    refine JsonValue.plain_object hkeys ?_
    simp [JsonValue.plain, hleft, hop, hright]
  split
  · have hkeys : (["key", "operation"].all isAscii && decide (["key", "operation"].Pairwise (· < ·))) = true := by
      decide
    refine JsonValue.plain_object hkeys ?_
    simp [JsonValue.plain, hkey, hop]
  · rename_i value hv
    have hkeys : (["key", "operation", "value"].all isAscii &&
        decide (["key", "operation", "value"].Pairwise (· < ·))) = true := by
      decide
    refine JsonValue.plain_object hkeys ?_
    simp [JsonValue.plain, hkey, hop, hvalue value hv]

theorem plain_requestJson {r : Request String} (hid : isAscii r.client_sessionID = true)
    (hsec : IsLong r.timestamp_sec) (hnsec : IsLong r.timestamp_nsec)
    (hops : ∀ o ∈ r.transaction, (operationJson o).plain = true) : (requestJson r).plain = true := by
  have hlong : ∀ n, IsLong n → (JsonValue.number n).plain = true := by
    rintro n ⟨hlow, hhigh⟩
    have hwide : n < 2 ^ 64 := Int.lt_trans hhigh (by decide)
    rw [JsonValue.plain, decide_eq_true hlow, decide_eq_true hwide]
    rfl
  have hitems : (JsonValue.array (r.transaction.map operationJson)).plain = true := by
    refine JsonValue.plainItems_iff.mpr ?_
    intro item hitem
    obtain ⟨o, ho, rfl⟩ := List.mem_map.mp hitem
    exact hops o ho
  have hkeys : (["client_sessionID", "timestamp_nsec", "timestamp_sec", "transaction"].all isAscii &&
      decide (["client_sessionID", "timestamp_nsec", "timestamp_sec", "transaction"].Pairwise (· < ·))) = true := by
    decide
  refine JsonValue.plain_object hkeys ?_
  intro field hfield
  simp only [List.mem_cons, List.not_mem_nil, or_false] at hfield
  rcases hfield with rfl | rfl | rfl | rfl
  · exact hid
  · exact hlong _ hnsec
  · exact hlong _ hsec
  · exact hitems

/-- One accepted line: the checker, the client's loop and the words agree on it. -/
theorem accepted_line {line : String} (haccepted : (checkOperationSyntax line).1 = true)
    (hrmw : (words line).head? ≠ some "RMW") :
    ∃ p, words line = spelling p ∧ parseOperation line = some (operationJson (operationOf p)) ∧
      (operationJson (operationOf p)).plain = true := by
  rcases (checkOperationSyntax_iff line).mp haccepted with
    ⟨op, key, value, hw, hop, hkey, hvalue⟩ | ⟨op, key, hw, hop, hkey⟩ | ⟨l, lx, r, rx, hw, hl, hr⟩
  · have hplain : ∀ op, isAscii op = true →
        (operationJson ⟨op, key, some value, "", false, "", false⟩).plain = true := by
      intro op hop
      refine plain_operationJson hop hkey ?_ rfl rfl
      intro v hv
      rw [← Option.some.inj hv]
      exact hvalue
    rcases hop with rfl | rfl | rfl
    · exact ⟨.INSERT key value, hw, parseOperation_keyValue hw (Or.inl rfl), hplain _ rfl⟩
    · exact ⟨.WRITE key value, hw, parseOperation_keyValue hw (Or.inr rfl), hplain _ rfl⟩
    · rw [hw] at hrmw
      exact absurd rfl hrmw
  · have hplain : ∀ op, isAscii op = true →
        (operationJson ⟨op, key, none, "", false, "", false⟩).plain = true :=
      fun op hop => plain_operationJson hop hkey nofun rfl rfl
    rcases hop with rfl | rfl
    · exact ⟨.READ key, hw, parseOperation_key hw (Or.inl rfl), hplain _ rfl⟩
    · exact ⟨.DELETE key, hw, parseOperation_key hw (Or.inr rfl), hplain _ rfl⟩
  · exact ⟨.SCAN l lx r rx, hw, parseOperation_scan hw, plain_operationJson (show isAscii "SCAN" = true by decide) rfl nofun hl hr⟩

theorem accepted_lines {lines : List String} (haccepted : ∀ line ∈ lines, (checkOperationSyntax line).1 = true)
    (hrmw : ∀ line ∈ lines, (words line).head? ≠ some "RMW") :
    ∃ ps : List (Procedure String String), ps.map spelling = lines.map words ∧
      lines.filterMap parseOperation = (ps.map operationOf).map operationJson ∧
      ∀ o ∈ ps.map operationOf, (operationJson o).plain = true := by
  induction lines with
  | nil => exact ⟨[], rfl, rfl, nofun⟩
  | cons line lines ih =>
    obtain ⟨p, hspell, hparse, hplain⟩ := accepted_line (haccepted line List.mem_cons_self) (hrmw line List.mem_cons_self)
    obtain ⟨ps, hspells, hparses, hplains⟩ := ih (fun l hl => haccepted l (List.mem_cons_of_mem _ hl))
      (fun l hl => hrmw l (List.mem_cons_of_mem _ hl))
    refine ⟨p :: ps, ?_, ?_, ?_⟩
    · rw [List.map_cons, List.map_cons, hspell, hspells]
    · rw [List.filterMap_cons, hparse, hparses]
      rfl
    · intro o ho
      rcases List.mem_cons.mp ho with rfl | ho
      · exact hplain
      · exact hplains o ho

def number_to_char (num : Nat) : Char :=
  if num < 26 then Char.ofNat (65 + num) else Char.ofNat (48 + (num - 26))

/-- The ID of a session from the six numbers that were drawn. -/
def generateSessionID (draws : Fin 6 → Nat) : String :=
  String.ofList (List.ofFn fun i => number_to_char (draws i % 36))

theorem isAscii_generateSessionID (draws : Fin 6 → Nat) : isAscii (generateSessionID draws) = true := by
  have hchar : ∀ n < 36, (number_to_char n).toNat < 128 := by decide
  rw [isAscii, generateSessionID, String.toList_ofList, List.all_eq_true]
  intro c hc
  obtain ⟨i, rfl⟩ := List.mem_ofFn.mp hc
  exact decide_eq_true (hchar _ (Nat.mod_lt _ (by decide)))

omit [DecidableEq W] in
/-- Accepted commands reach `pro_set_`, one procedure a line, spelled as the line is. -/
theorem commands_reach_pro_set (text : JsonText) (s : State W String) (x : Executor String)
    {lines : List String} (haccepted : ∀ line ∈ lines, (checkOperationSyntax line).1 = true)
    (hrmw : ∀ line ∈ lines, (words line).head? ≠ some "RMW") {session_id : String}
    (hid : isAscii session_id = true) {timestamp_sec timestamp_nsec : Int} (hsec : IsLong timestamp_sec)
    (hnsec : IsLong timestamp_nsec)
    (hnewer : 0 < compare_timestamps timestamp_sec timestamp_nsec (s.getTimestampSec session_id)
      (s.getTimestampNsec session_id)) :
    ∃ procedures : List (Procedure String String),
      json_to_procedures text s x (text.dump (parse_command timestamp_sec timestamp_nsec session_id lines)) =
        some (0, s.setTimestamp session_id timestamp_sec timestamp_nsec,
          { x with session_id_ := session_id, pro_set_ := procedures }) ∧
      procedures.map spelling = lines.map words := by
  obtain ⟨ps, hspell, hparse, hplain⟩ := accepted_lines haccepted hrmw
  refine ⟨ps, ?_, hspell⟩
  set r : Request String := ⟨session_id, timestamp_sec, timestamp_nsec, ps.map operationOf⟩ with hr
  have hjson : parse_command timestamp_sec timestamp_nsec session_id lines = requestJson r := by
    rw [parse_command_eq, hparse]
    rfl
  rw [hjson, json_to_procedures_dump text s x (plain_requestJson hid hsec hnsec hplain) hsec hnsec,
    Server.json_to_procedures, if_neg (not_le.mpr hnewer)]
  simp only [hr, convertOperations_operationOf]

/-- Two commands of a client whose session has not sent anything yet. -/
def twoCommands : List String := ["INSERT key1 value1", " SCAN a\ttrue b  false"]

def newSessionID : String := generateSessionID ![0, 1, 27, 28, 2, 3]

/-- The text that goes out for them. -/
example : compactText.dump (parse_command 1 0 newSessionID twoCommands) =
    "\x7b\"client_sessionID\":\"AB12CD\",\"timestamp_nsec\":0,\"timestamp_sec\":1,\"transaction\":[" ++
      "\x7b\"key\":\"key1\",\"operation\":\"INSERT\",\"value\":\"value1\"\x7d," ++
      "\x7b\"l_exclusive\":true,\"left_key\":\"a\",\"operation\":\"SCAN\",\"r_exclusive\":false," ++
      "\"right_key\":\"b\"\x7d]\x7d" := by
  decide +kernel

def idleExecutor : Executor String := ⟨.new, "", [], ⟨"", 0⟩, 0, []⟩

theorem commands_reach_pro_set_two : ∃ procedures : List (Procedure String String),
    json_to_procedures compactText (State.new : State Unit String) idleExecutor
        (compactText.dump (parse_command 1 0 newSessionID twoCommands)) =
      some (0, (State.new : State Unit String).setTimestamp newSessionID 1 0,
        { idleExecutor with session_id_ := newSessionID, pro_set_ := procedures }) ∧
    procedures.map spelling = [["INSERT", "key1", "value1"], ["SCAN", "a", "true", "b", "false"]] := by
  have hwords : twoCommands.map words = [["INSERT", "key1", "value1"], ["SCAN", "a", "true", "b", "false"]] := by
    decide
  rw [← hwords]
  exact commands_reach_pro_set compactText State.new idleExecutor (by decide) (by decide)
    (isAscii_generateSessionID _) ⟨by decide, by decide⟩ ⟨by decide, by decide⟩ (by decide)

end Cassa.Server.Wire
