import Mathlib.Data.List.TakeWhile
import Cassa.Common.Json

/-!
# The commands of a client

`checkOperationSyntax` of `command_handler.hpp` and `parse_command` of `parse_command.hpp`. Each
takes a line apart with a stream of its own. A `std::string` is a `String` with one character a
byte. A line that is accepted has exactly the words of one operation, all of them ASCII.
-/

namespace Cassa.Client

/-- `std::isspace`. -/
def isSpace (c : Char) : Bool := c == ' ' || (9 ≤ c.toNat && c.toNat ≤ 13)

/-- What is left to read, and `fail()`. After a failure nothing is read any more. -/
structure IStringStream where
  rest : List Char
  fail : Bool

def IStringStream.of (str : String) : IStringStream := ⟨str.toList, false⟩

/-- `>>` into an empty string. -/
def IStringStream.next (stream : IStringStream) : String × IStringStream :=
  let rest := stream.rest.dropWhile isSpace
  if stream.fail || rest.isEmpty then ("", ⟨rest, true⟩)
  else (String.ofList (rest.takeWhile (!isSpace ·)), ⟨rest.dropWhile (!isSpace ·), false⟩)

/-- `>> std::boolalpha >>` into a `bool`; what follows the name in its word stays in the stream. -/
def IStringStream.nextBool (stream : IStringStream) : Bool × IStringStream :=
  let rest := stream.rest.dropWhile isSpace
  if stream.fail then (false, stream)
  else if rest.take 4 = "true".toList then (true, ⟨rest.drop 4, false⟩)
  else if rest.take 5 = "false".toList then (false, ⟨rest.drop 5, false⟩)
  else (false, ⟨rest, true⟩)

def isOperation (str : String) : Bool :=
  str == "INSERT" || str == "DELETE" || str == "READ" || str == "WRITE" || str == "RMW" || str == "SCAN"

/-- A word that is left over. -/
def checkExtra (operation_type : String) (stream : IStringStream) : Bool × String :=
  if !stream.next.2.fail then
    (false, "Syntax error: Too many arguments for the " ++ operation_type ++ " operation.")
  else (true, "Syntax is correct.")

/-- INSERT, WRITE and RMW. -/
def checkKeyValue (operation_type : String) (stream : IStringStream) : Bool × String :=
  let (key, stream) := stream.next
  let (value, stream) := stream.next
  if stream.fail then
    (false, "Syntax error: " ++ operation_type ++ " operation requires `key` and `value`.")
  else if !isAscii key then (false, "Error: Non-ASCII character detected in: " ++ key)
  else if !isAscii value then (false, "Error: Non-ASCII character detected in: " ++ value)
  else checkExtra operation_type stream

/-- READ and DELETE; the message names READ for both. -/
def checkKey (operation_type : String) (stream : IStringStream) : Bool × String :=
  let (key, stream) := stream.next
  if stream.fail then (false, "Syntax error: READ operation requires a key.")
  else if !isAscii key then (false, "Error: Non-ASCII character detected in: " ++ key)
  else checkExtra operation_type stream

def checkScan (operation_type : String) (stream : IStringStream) : Bool × String :=
  let (left_key, stream) := stream.next
  let (l_exclusive_str, stream) := stream.next
  let (right_key, stream) := stream.next
  let (r_exclusive_str, stream) := stream.next
  if stream.fail then
    (false, "Syntax error: SCAN operation requires `<left_key> <l_exclusive> <right_key> <r_exclusive>`.")
  else if l_exclusive_str != "true" && l_exclusive_str != "false" then
    (false, "Syntax error: l_exclusive must be 'true' or 'false'.")
  else if r_exclusive_str != "true" && r_exclusive_str != "false" then
    (false, "Syntax error: r_exclusive must be 'true' or 'false'.")
  else if !isAscii left_key || !isAscii right_key then
    (false, "Error: Non-ASCII character detected in keys.")
  else checkExtra operation_type stream

def checkOperationSyntax (operation : String) : Bool × String :=
  let (operation_type, stream) := (IStringStream.of operation).next
  if !isAscii operation_type then
    (false, "Error: Non-ASCII character detected in: " ++ operation_type)
  else if !isOperation operation_type then (false, "Unknown operation: " ++ operation_type)
  else if operation_type == "INSERT" || operation_type == "WRITE" || operation_type == "RMW" then
    checkKeyValue operation_type stream
  else if operation_type == "READ" || operation_type == "DELETE" then checkKey operation_type stream
  else if operation_type == "SCAN" then checkScan operation_type stream
  else (false, "Unknown operation type: " ++ operation_type)

/-- What the loop of `parse_command` appends for a line, if anything. -/
def parseOperation (command : String) : Option JsonValue :=
  let (operation_type, ss) := (IStringStream.of command).next
  if operation_type == "SCAN" then
    let (left_key, ss) := ss.next
    let (l_exclusive, ss) := ss.nextBool
    let (right_key, ss) := ss.next
    let (r_exclusive, _) := ss.nextBool
    some (.ofList [("operation", .string "SCAN"), ("left_key", .string left_key),
      ("l_exclusive", .boolean l_exclusive), ("right_key", .string right_key),
      ("r_exclusive", .boolean r_exclusive)])
  else
    let (key, ss) := ss.next
    if operation_type == "INSERT" || operation_type == "WRITE" || operation_type == "RMW" then
      let (value, _) := ss.next
      some (.ofList [("operation", .string operation_type), ("key", .string key), ("value", .string value)])
    else if operation_type == "READ" || operation_type == "DELETE" then
      some (.ofList [("operation", .string operation_type), ("key", .string key)])
    else none

/-- The loop body, on the array under `"transaction"`. -/
def appendOperation (operations : JsonValue) (command : String) : JsonValue :=
  match parseOperation command with
  | some operation => operations.push_back operation
  | none => operations

def parse_command (timestamp_sec timestamp_nsec : Int) (session_id : String) (commands : List String) :
    JsonValue :=
  let operations := commands.foldl appendOperation (.array [])
  (JsonValue.object []).set "timestamp_sec" (.number timestamp_sec)
    |>.set "timestamp_nsec" (.number timestamp_nsec)
    |>.set "client_sessionID" (.string session_id)
    |>.set "transaction" operations

def wordsOf (cs : List Char) : List String :=
  ((cs.splitOnP isSpace).filter (!·.isEmpty)).map String.ofList

/-- The words of a line, with white space between them. -/
def words (line : String) : List String := wordsOf line.toList

theorem wordsOf_dropWhile (cs : List Char) : wordsOf (cs.dropWhile isSpace) = wordsOf cs := by
  induction cs with
  | nil => rfl
  | cons c cs ih =>
    by_cases hc : isSpace c = true
    · rw [List.dropWhile_cons_of_pos hc, ih]
      simp [wordsOf, List.splitOnP_cons_eq_if_modifyHead, hc]
    · rw [List.dropWhile_cons_of_neg hc]

theorem wordsOf_append {w : List Char} (hne : w ≠ []) (hw : ∀ c ∈ w, isSpace c = false) {rest : List Char}
    (hrest : ∀ c, rest.head? = some c → isSpace c = true) :
    wordsOf (w ++ rest) = String.ofList w :: wordsOf rest := by
  cases rest with
  | nil =>
    simp [wordsOf, List.splitOnP_eq_singleton hw, hne]
  | cons c rest =>
    have hc : isSpace c = true := hrest c rfl
    rw [wordsOf, List.splitOnP_append_cons_of_forall_mem hw c hc]
    simp [wordsOf, List.splitOnP_cons_eq_if_modifyHead, hc, hne]

/-- Behind the white space there is nothing, or a word. -/
theorem behind_space (cs : List Char) : cs.dropWhile isSpace = [] ∨ ∃ w rest,
    cs.dropWhile isSpace = w ++ rest ∧ w ≠ [] ∧ (∀ c ∈ w, isSpace c = false) ∧
      (∀ c, rest.head? = some c → isSpace c = true) ∧ wordsOf cs = String.ofList w :: wordsOf rest := by
  have hwords := wordsOf_dropWhile cs
  have hhead := List.head?_dropWhile_not isSpace cs
  cases hd : cs.dropWhile isSpace with
  | nil => exact Or.inl rfl
  | cons d ds =>
    rw [hd] at hhead hwords
    have hspace : isSpace d = false := hhead
    have hne : (d :: ds).takeWhile (!isSpace ·) ≠ [] := by
      rw [List.takeWhile_cons, hspace]
      exact List.cons_ne_nil _ _
    have hw : ∀ c ∈ (d :: ds).takeWhile (!isSpace ·), isSpace c = false := by
      intro c hc
      simpa using List.mem_takeWhile_imp hc
    have hrest : ∀ c, ((d :: ds).dropWhile (!isSpace ·)).head? = some c → isSpace c = true := by
      intro c hc
      have hnot := List.head?_dropWhile_not (!isSpace ·) (d :: ds)
      rw [hc] at hnot
      simpa using hnot
    have hsplit := wordsOf_append hne hw hrest
    rw [List.takeWhile_append_dropWhile, hwords] at hsplit
    exact Or.inr ⟨_, _, (List.takeWhile_append_dropWhile ..).symm, hne, hw, hrest, hsplit⟩

/-- A stream that has not failed, with words to come. -/
structure IStringStream.Has (stream : IStringStream) (ws : List String) : Prop where
  ok : stream.fail = false
  words : wordsOf stream.rest = ws

namespace IStringStream.Has

variable {stream : IStringStream} {t : String} {ts : List String}

theorem of (line : String) : (IStringStream.of line).Has (Client.words line) := ⟨rfl, rfl⟩

theorem split (h : stream.Has (t :: ts)) : ∃ rest, stream.rest.dropWhile isSpace = t.toList ++ rest ∧
    t.toList ≠ [] ∧ (∀ c ∈ t.toList, isSpace c = false) ∧ (∀ c, rest.head? = some c → isSpace c = true) ∧
    wordsOf rest = ts := by
  have hwords := h.words
  rcases behind_space stream.rest with hnil | ⟨w, rest, hd, hne, hw, hrest, heq⟩
  · rw [← wordsOf_dropWhile, hnil] at hwords
    cases hwords
  · rw [hwords, List.cons.injEq] at heq
    rw [heq.1, String.toList_ofList]
    exact ⟨rest, hd, hne, hw, hrest, heq.2.symm⟩

theorem next (h : stream.Has (t :: ts)) : ∃ stream', stream.next = (t, stream') ∧ stream'.Has ts := by
  obtain ⟨rest, hd, hne, hw, hrest, hts⟩ := h.split
  refine ⟨⟨rest, false⟩, ?_, rfl, hts⟩
  have hnot : ∀ c ∈ t.toList, (!isSpace c) = true := fun c hc => by simp [hw c hc]
  have hhead : rest.takeWhile (!isSpace ·) = [] ∧ rest.dropWhile (!isSpace ·) = rest := by
    cases rest with
    | nil => exact ⟨rfl, rfl⟩
    | cons c cs => simp [hrest c rfl]
  have hempty : (t.toList ++ rest).isEmpty = false := by simp [hne]
  simp only [IStringStream.next, hd, h.ok, hempty, Bool.or_self, Bool.false_eq_true, if_false,
    List.takeWhile_append_of_pos hnot, List.dropWhile_append_of_pos hnot, hhead, List.append_nil,
    String.ofList_toList]

theorem next_empty (h : stream.Has []) : stream.next = ("", ⟨[], true⟩) := by
  rcases behind_space stream.rest with hnil | ⟨w, rest, -, -, -, -, heq⟩
  · simp [IStringStream.next, hnil]
  · rw [h.words] at heq
    cases heq

theorem next_nil (h : stream.Has []) : stream.next.2.fail = true := by rw [h.next_empty]

/-- The name of a truth value that is a whole word. -/
theorem nextBool {b : Bool} (h : stream.Has (toString b :: ts)) :
    ∃ stream', stream.nextBool = (b, stream') ∧ stream'.Has ts := by
  obtain ⟨rest, hd, -, -, -, hts⟩ := h.split
  refine ⟨⟨rest, false⟩, ?_, rfl, hts⟩
  cases b with
  | true =>
    have hrest : stream.rest.dropWhile isSpace = 't' :: 'r' :: 'u' :: 'e' :: rest := hd
    simp [IStringStream.nextBool, h.ok, hrest]
  | false =>
    have hrest : stream.rest.dropWhile isSpace = 'f' :: 'a' :: 'l' :: 's' :: 'e' :: rest := hd
    simp [IStringStream.nextBool, h.ok, hrest]

end IStringStream.Has

theorem next_fail {stream : IStringStream} (h : stream.fail = true) : stream.next.2.fail = true := by
  simp [IStringStream.next, h]

section

variable {stream : IStringStream} {ws : List String} {operation_type : String}

theorem checkExtra_iff (h : stream.Has ws) : (checkExtra operation_type stream).1 = true ↔ ws = [] := by
  cases ws with
  | nil => simp [checkExtra, h.next_nil]
  | cons t ts =>
    obtain ⟨stream', hnext, h'⟩ := h.next
    simp [checkExtra, hnext, h'.ok]

theorem checkKey_iff (h : stream.Has ws) :
    (checkKey operation_type stream).1 = true ↔ ∃ key, ws = [key] ∧ isAscii key = true := by
  cases ws with
  | nil => simp [checkKey, h.next_nil]
  | cons key ws =>
    obtain ⟨s₁, h₁, hs₁⟩ := h.next
    rw [checkKey, h₁]
    simp only [hs₁.ok, Bool.false_eq_true, if_false]
    cases hkey : isAscii key with
    | false => simp [hkey]
    | true => simp [checkExtra_iff hs₁, hkey]

theorem checkKeyValue_iff (h : stream.Has ws) :
    (checkKeyValue operation_type stream).1 = true ↔
      ∃ key value, ws = [key, value] ∧ isAscii key = true ∧ isAscii value = true := by
  cases ws with
  | nil => simp [checkKeyValue, next_fail h.next_nil]
  | cons key ws =>
    obtain ⟨s₁, h₁, hs₁⟩ := h.next
    rw [checkKeyValue, h₁]
    cases ws with
    | nil => simp [hs₁.next_nil]
    | cons value ws =>
      obtain ⟨s₂, h₂, hs₂⟩ := hs₁.next
      simp only [h₂, hs₂.ok, Bool.false_eq_true, if_false]
      cases hkey : isAscii key with
      | false => simp [hkey]
      | true => cases hvalue : isAscii value <;> simp [checkExtra_iff hs₂, hkey, hvalue]

theorem flag_iff (str : String) : ¬ (str != "true" && str != "false") = true ↔ ∃ b : Bool, str = toString b := by
  simp only [Bool.exists_bool, Bool.and_eq_true, bne_iff_ne, ne_eq, not_and, not_not]
  change _ ↔ str = "false" ∨ str = "true"
  rw [or_comm, or_iff_not_imp_left]

theorem checkScan_iff (h : stream.Has ws) :
    (checkScan operation_type stream).1 = true ↔ ∃ left_key l_exclusive right_key r_exclusive,
      ws = [left_key, toString (l_exclusive : Bool), right_key, toString (r_exclusive : Bool)] ∧
        isAscii left_key = true ∧ isAscii right_key = true := by
  cases ws with
  | nil => simp [checkScan, next_fail (next_fail (next_fail h.next_nil))]
  | cons left_key ws =>
    obtain ⟨s₁, h₁, hs₁⟩ := h.next
    rw [checkScan, h₁]
    cases ws with
    | nil => simp [next_fail (next_fail hs₁.next_nil)]
    | cons l_exclusive_str ws =>
      obtain ⟨s₂, h₂, hs₂⟩ := hs₁.next
      cases ws with
      | nil => simp [h₂, next_fail hs₂.next_nil]
      | cons right_key ws =>
        obtain ⟨s₃, h₃, hs₃⟩ := hs₂.next
        cases ws with
        | nil => simp [h₂, h₃, hs₃.next_nil]
        | cons r_exclusive_str ws =>
          obtain ⟨s₄, h₄, hs₄⟩ := hs₃.next
          simp only [h₂, h₃, h₄, hs₄.ok, Bool.false_eq_true, if_false]
          by_cases hl : ∃ b : Bool, l_exclusive_str = toString b
          swap
          · rw [if_pos (not_not.mp (mt (flag_iff _).mp hl))]
            refine ⟨nofun, ?_⟩
            rintro ⟨_, b, _, _, hws, -⟩
            simp only [List.cons.injEq] at hws
            exact absurd ⟨b, hws.2.1⟩ hl
          rw [if_neg ((flag_iff _).mpr hl)]
          by_cases hr : ∃ b : Bool, r_exclusive_str = toString b
          swap
          · rw [if_pos (not_not.mp (mt (flag_iff _).mp hr))]
            refine ⟨nofun, ?_⟩
            rintro ⟨_, _, _, b, hws, -⟩
            simp only [List.cons.injEq] at hws
            exact absurd ⟨b, hws.2.2.2.1⟩ hr
          rw [if_neg ((flag_iff _).mpr hr)]
          obtain ⟨l_exclusive, rfl⟩ := hl
          obtain ⟨r_exclusive, rfl⟩ := hr
          constructor
          · intro hcheck
            split at hcheck
            · cases hcheck
            · rename_i hascii
              obtain rfl := (checkExtra_iff hs₄).mp hcheck
              simp only [Bool.or_eq_true, Bool.not_eq_true', not_or, Bool.not_eq_false] at hascii
              exact ⟨left_key, l_exclusive, right_key, r_exclusive, rfl, hascii⟩
          · rintro ⟨_, _, _, _, hws, hleft, hright⟩
            simp only [List.cons.injEq] at hws
            obtain ⟨rfl, -, rfl, -, rfl⟩ := hws
            simp [hleft, hright, checkExtra_iff hs₄]

/-- The lines that are accepted: the words of one operation, no more and no fewer. -/
theorem checkOperationSyntax_iff (line : String) : (checkOperationSyntax line).1 = true ↔
    (∃ operation_type key value, words line = [operation_type, key, value] ∧
      (operation_type = "INSERT" ∨ operation_type = "WRITE" ∨ operation_type = "RMW") ∧
        isAscii key = true ∧ isAscii value = true) ∨
    (∃ operation_type key, words line = [operation_type, key] ∧
      (operation_type = "READ" ∨ operation_type = "DELETE") ∧ isAscii key = true) ∨
    ∃ left_key l_exclusive right_key r_exclusive,
      words line = ["SCAN", left_key, toString (l_exclusive : Bool), right_key, toString (r_exclusive : Bool)] ∧
        isAscii left_key = true ∧ isAscii right_key = true := by
  have hline := IStringStream.Has.of line
  cases hw : words line with
  | nil =>
    rw [hw] at hline
    have hcheck : (checkOperationSyntax line).1 = false := by
      rw [checkOperationSyntax, hline.next_empty]
      rfl
    simp [hcheck]
  | cons operation_type ws =>
    rw [hw] at hline
    obtain ⟨stream, hnext, hs⟩ := hline.next
    rw [checkOperationSyntax, hnext]
    simp only [List.cons.injEq]
    by_cases hkv : operation_type = "INSERT" ∨ operation_type = "WRITE" ∨ operation_type = "RMW"
    · have hcheck : (checkKeyValue operation_type stream).1 = true ↔ _ := checkKeyValue_iff hs
      rcases hkv with rfl | rfl | rfl
      all_goals
        refine Iff.trans hcheck ?_
        simp
    by_cases hk : operation_type = "READ" ∨ operation_type = "DELETE"
    · have hcheck : (checkKey operation_type stream).1 = true ↔ _ := checkKey_iff hs
      rcases hk with rfl | rfl
      all_goals
        refine Iff.trans hcheck ?_
        simp
    by_cases hscan : operation_type = "SCAN"
    · have hcheck : (checkScan operation_type stream).1 = true ↔ _ := checkScan_iff hs
      subst hscan
      refine Iff.trans hcheck ?_
      simp
    · have hnone : isOperation operation_type = false := by
        simp_all [isOperation]
      have hfirst : ∀ a b : String, (if isAscii operation_type = false then (false, a) else (false, b)).1 = false := by
        intro a b
        split <;> rfl
      simp_all

end

section

variable {line operation_type key value : String}

theorem parseOperation_keyValue (h : words line = [operation_type, key, value])
    (hop : operation_type = "INSERT" ∨ operation_type = "WRITE") :
    parseOperation line = some (.object
      [("key", .string key), ("operation", .string operation_type), ("value", .string value)]) := by
  have hline := IStringStream.Has.of line
  rw [h] at hline
  obtain ⟨s₁, h₁, hs₁⟩ := hline.next
  obtain ⟨s₂, h₂, hs₂⟩ := hs₁.next
  obtain ⟨s₃, h₃, -⟩ := hs₂.next
  rw [parseOperation, h₁]
  rcases hop with rfl | rfl
  all_goals
    simp only [h₂, h₃, beq_iff_eq]
    simp +decide only [JsonValue.ofList, JsonValue.set, JsonValue.set.insert, List.foldl, if_false, if_true]

theorem parseOperation_key (h : words line = [operation_type, key])
    (hop : operation_type = "READ" ∨ operation_type = "DELETE") :
    parseOperation line = some (.object [("key", .string key), ("operation", .string operation_type)]) := by
  have hline := IStringStream.Has.of line
  rw [h] at hline
  obtain ⟨s₁, h₁, hs₁⟩ := hline.next
  obtain ⟨s₂, h₂, -⟩ := hs₁.next
  rw [parseOperation, h₁]
  rcases hop with rfl | rfl
  all_goals
    simp only [h₂, beq_iff_eq]
    simp +decide only [JsonValue.ofList, JsonValue.set, JsonValue.set.insert, List.foldl, if_false, if_true]

theorem parseOperation_scan {left_key right_key : String} {l_exclusive r_exclusive : Bool}
    (h : words line = ["SCAN", left_key, toString l_exclusive, right_key, toString r_exclusive]) :
    parseOperation line = some (.object [("l_exclusive", .boolean l_exclusive), ("left_key", .string left_key),
      ("operation", .string "SCAN"), ("r_exclusive", .boolean r_exclusive), ("right_key", .string right_key)]) := by
  have hline := IStringStream.Has.of line
  rw [h] at hline
  obtain ⟨s₁, h₁, hs₁⟩ := hline.next
  obtain ⟨s₂, h₂, hs₂⟩ := hs₁.next
  obtain ⟨s₃, h₃, hs₃⟩ := hs₂.nextBool
  obtain ⟨s₄, h₄, hs₄⟩ := hs₃.next
  obtain ⟨s₅, h₅, -⟩ := hs₄.nextBool
  rw [parseOperation, h₁]
  simp only [h₂, h₃, h₄, h₅, beq_self_eq_true, if_true]
  simp +decide only [JsonValue.ofList, JsonValue.set, JsonValue.set.insert, List.foldl, if_false, if_true]

end

theorem foldl_appendOperation (commands : List String) (items : List JsonValue) :
    commands.foldl appendOperation (.array items) = .array (items ++ commands.filterMap parseOperation) := by
  induction commands generalizing items with
  | nil => simp
  | cons command commands ih =>
    rw [List.foldl_cons, List.filterMap_cons, appendOperation]
    cases parseOperation command with
    | none => exact ih items
    | some operation =>
      change commands.foldl appendOperation (.array (items ++ [operation])) = _
      rw [ih, List.append_assoc, List.singleton_append]

/-- The object that is dumped, with its keys in order. -/
theorem parse_command_eq (timestamp_sec timestamp_nsec : Int) (session_id : String) (commands : List String) :
    parse_command timestamp_sec timestamp_nsec session_id commands =
      .object [("client_sessionID", .string session_id), ("timestamp_nsec", .number timestamp_nsec),
        ("timestamp_sec", .number timestamp_sec), ("transaction", .array (commands.filterMap parseOperation))] := by
  rw [parse_command, foldl_appendOperation]
  simp +decide only [JsonValue.set, JsonValue.set.insert, if_false, if_true, List.nil_append]

end Cassa.Client
