import Cassa.Client.Commands

/-!
# The loop of the client

`handle_command` of `client.cpp`, from the text that is typed to the requests that are sent. A request
holds the accepted lines of its transaction that no `/undo` has taken back.
-/

namespace Cassa.Client

/-- `std::getline` until it meets the end of the file: what is behind the last newline is not handled. -/
def getlines (line : List Char) : List Char → List String
  | [] => []
  | c :: input => if c = '\n' then String.ofList line :: getlines [] input else getlines (line ++ [c]) input

/-- What a turn of the loop finds if it sends something: the clock and the response of the server. -/
structure Around where
  timestamp_sec : Int
  timestamp_nsec : Int
  response : String

structure State where
  client_session_id : String
  operations : List String
  in_transaction : Bool

def State.new : State := ⟨"", [], false⟩

/-- Which lines are printed, and `sendData` for what goes to the server. -/
inductive Output where
  | awaiting
  | prompt (operations : List String) (in_transaction : Bool)
  | exiting
  | help
  | alreadyInTransaction
  | nowInTransaction
  | notInTransaction
  | removed (operation : String)
  | noOperation
  | added (command : String)
  | invalid (message : String)
  | unknownCommand
  | sendData (data : String)
  | gotSessionId (response : String)
  | gotResponse (response : String)
  deriving DecidableEq

/-- The response to `/get_session_id` is the session ID. -/
def send_data (s : State) (data : String) (response : String) : State × List Output :=
  if String.ofList (data.toList.takeWhile (· != ' ')) = "/get_session_id" then
    ({ s with client_session_id := response }, [.sendData data, .gotSessionId response])
  else (s, [.sendData data, .gotResponse response])

def request_session_id (s : State) (around : Around) : State × List Output :=
  let command := "/get_session_id" ++ " " ++ toString around.timestamp_sec ++ " " ++ toString around.timestamp_nsec
  send_data s command around.response

/-- `parse_command` at the time of the clock, and what it makes sent. -/
def sendTransaction (text : JsonText) (s : State) (around : Around) (operations : List String) : State × List Output :=
  let transaction_json := parse_command around.timestamp_sec around.timestamp_nsec s.client_session_id operations
  send_data s (text.dump transaction_json) around.response

/-- What `/test` sends. -/
def testOperations : List String := ["INSERT hoge fuga", "INSERT piyo pao"]

/-- The body of the loop, for a line that does not end it. -/
def handle (text : JsonText) (s : State) (around : Around) (command : String) : State × List Output :=
  if command = "/help" then (s, [.help])
  else if command = "/maketx" then
    if s.in_transaction then (s, [.alreadyInTransaction])
    else ({ s with operations := [], in_transaction := true }, [.nowInTransaction])
  else if command = "/endtx" then
    if s.in_transaction then
      let s := { s with in_transaction := false }
      if s.operations.length > 0 then
        let (s, outputs) := sendTransaction text s around s.operations
        ({ s with operations := [] }, outputs)
      else (s, [])
    else (s, [.notInTransaction])
  else if command = "/undo" then
    if s.in_transaction then
      match s.operations.getLast? with
      | some operation => ({ s with operations := s.operations.dropLast }, [.removed operation])
      | none => (s, [.noOperation])
    else (s, [.notInTransaction])
  else if command = "/test" then sendTransaction text s around testOperations
  else if s.in_transaction then
    match checkOperationSyntax command with
    | (true, _) => ({ s with operations := s.operations ++ [command] }, [.added command])
    | (false, message) => (s, [.invalid message])
  else (s, [.unknownCommand])

/-- The loop from its turn `n` on, over the lines that `getline` has left. -/
def commandLoop (text : JsonText) (around : Nat → Around) (n : Nat) (s : State) : List String → List Output
  | [] => [.prompt s.operations s.in_transaction, .exiting]
  | command :: commands =>
    if command = "/exit" then [.prompt s.operations s.in_transaction, .exiting]
    else
      .prompt s.operations s.in_transaction :: (handle text s (around n) command).2 ++
        commandLoop text around (n + 1) (handle text s (around n) command).1 commands

/-- `none`: without a session ID the loop in front of it never ends. -/
def handle_command (text : JsonText) (around : Nat → Around) (s : State) (input : List Char) :
    Option (List Output) :=
  if s.client_session_id = "" then none
  else some (.awaiting :: commandLoop text around 0 s (getlines [] input))

/-- The client behind the handshake. -/
def client (text : JsonText) (connected : Around) (around : Nat → Around) (input : List Char) : Option (List Output) :=
  let (s, outputs) := request_session_id .new connected
  (handle_command text around s input).map fun rest => outputs ++ rest

def sent (outputs : List Output) : List String :=
  outputs.filterMap fun
    | .sendData data => some data
    | _ => none

/-- The lines of a transaction read backwards: an `/undo` takes the operation it meets first. -/
def keptBackwards (undos : Nat) : List String → List String
  | [] => []
  | line :: lines =>
    if line = "/undo" then keptBackwards (undos + 1) lines
    else if (checkOperationSyntax line).1 then
      if undos = 0 then line :: keptBackwards 0 lines else keptBackwards (undos - 1) lines
    else keptBackwards undos lines

def kept (lines : List String) : List String := (keptBackwards 0 lines.reverse).reverse

/-- The lines since the last `/endtx`. -/
def sinceEnd (lines : List String) : List String := (lines.reverse.takeWhile (· != "/endtx")).reverse

/-- The lines of the transaction that is open: what follows the first `/maketx` since the last `/endtx`. -/
def opened (lines : List String) : List String := ((sinceEnd lines).dropWhile (· != "/maketx")).drop 1

/-- The operations that a line behind `lines` sends. -/
def request (lines : List String) (line : String) : Option (List String) :=
  if line = "/test" then some testOperations
  else if line = "/endtx" ∧ kept (opened lines) ≠ [] then some (kept (opened lines))
  else none

def requestAt (lines : List String) (n : Nat) : Option (List String) :=
  if "/exit" ∈ lines.take n then none else lines[n]?.bind (request (lines.take n))

/-- The text of a request that is sent in turn `n`. -/
def requestText (text : JsonText) (around : Nat → Around) (session_id : String) (n : Nat) (operations : List String) :
    String :=
  text.dump (parse_command (around n).timestamp_sec (around n).timestamp_nsec session_id operations)

/-- The text of an object starts with a brace. -/
def Braced (text : JsonText) : Prop := ∀ fields, (text.dump (.object fields)).toList.head? = some '\x7b'

theorem getlines_append (line : List Char) {typed : List Char} (h : '\n' ∉ typed) (input : List Char) :
    getlines line (typed ++ input) = getlines (line ++ typed) input := by
  induction typed generalizing line with
  | nil => rw [List.append_nil, List.nil_append]
  | cons c typed ih =>
    obtain ⟨hc, htyped⟩ := not_or.mp (mt List.mem_cons.mpr h)
    rw [List.cons_append, getlines, if_neg (Ne.symm hc), ih _ htyped, List.append_assoc, List.singleton_append]

/-- Lines that are typed one after another, and something behind the last newline. -/
theorem getlines_typed {typed : List String} (htyped : ∀ line ∈ typed, '\n' ∉ line.toList) {last : List Char}
    (hlast : '\n' ∉ last) : getlines [] (typed.flatMap (fun line => line.toList ++ ['\n']) ++ last) = typed := by
  induction typed with
  | nil =>
    have hnone := getlines_append [] hlast []
    rwa [List.append_nil] at hnone
  | cons line typed ih =>
    rw [List.flatMap_cons, List.append_assoc, List.append_assoc, getlines_append [] (htyped line List.mem_cons_self),
      List.nil_append, List.singleton_append, getlines, if_pos rfl, String.ofList_toList,
      ih fun l hl => htyped l (List.mem_cons_of_mem _ hl)]

theorem keptBackwards_eq_drop (undos : Nat) (lines : List String) :
    keptBackwards undos lines = (keptBackwards 0 lines).drop undos := by
  induction lines generalizing undos with
  | nil => simp [keptBackwards]
  | cons line lines ih =>
    rw [keptBackwards, keptBackwards]
    by_cases hundo : line = "/undo"
    · rw [if_pos hundo, if_pos hundo, ih, ih (0 + 1), List.drop_drop, Nat.zero_add, Nat.add_comm]
    rw [if_neg hundo, if_neg hundo]
    by_cases haccepted : (checkOperationSyntax line).1 = true
    · rw [if_pos haccepted, if_pos haccepted]
      cases undos with
      | zero => rfl
      | succ undos =>
        rw [if_neg (Nat.succ_ne_zero undos), if_pos rfl, List.drop_succ_cons]
        exact ih undos
    · rw [if_neg haccepted, if_neg haccepted]
      exact ih undos

section

variable {lines : List String} {line : String}

theorem kept_undo : kept (lines ++ ["/undo"]) = (kept lines).dropLast := by
  rw [kept, kept, List.reverse_append, List.reverse_singleton, List.singleton_append, keptBackwards, if_pos rfl,
    keptBackwards_eq_drop, List.dropLast_reverse, ← List.drop_one]

theorem kept_accepted (haccepted : (checkOperationSyntax line).1 = true) : kept (lines ++ [line]) = kept lines ++ [line] := by
  have hundo : line ≠ "/undo" := by
    rintro rfl
    exact absurd haccepted (by decide)
  rw [kept, List.reverse_append, List.reverse_singleton, List.singleton_append, keptBackwards, if_neg hundo,
    if_pos haccepted, if_pos rfl, List.reverse_cons, ← kept]

theorem kept_other (hundo : line ≠ "/undo") (hinvalid : (checkOperationSyntax line).1 = false) :
    kept (lines ++ [line]) = kept lines := by
  have hinvalid : ¬ (checkOperationSyntax line).1 = true := by simp [hinvalid]
  rw [kept, List.reverse_append, List.reverse_singleton, List.singleton_append, keptBackwards, if_neg hundo,
    if_neg hinvalid, ← kept]

theorem accepted_of_mem_keptBackwards {undos : Nat} (h : line ∈ keptBackwards undos lines) :
    (checkOperationSyntax line).1 = true := by
  induction lines generalizing undos with
  | nil => cases h
  | cons first lines ih =>
    rw [keptBackwards] at h
    by_cases hundo : first = "/undo"
    · rw [if_pos hundo] at h
      exact ih h
    rw [if_neg hundo] at h
    by_cases haccepted : (checkOperationSyntax first).1 = true
    · rw [if_pos haccepted] at h
      by_cases hundos : undos = 0
      · rw [if_pos hundos] at h
        rcases List.mem_cons.mp h with rfl | h
        · exact haccepted
        · exact ih h
      · rw [if_neg hundos] at h
        exact ih h
    · rw [if_neg haccepted] at h
      exact ih h

theorem accepted_of_mem_kept (h : line ∈ kept lines) : (checkOperationSyntax line).1 = true :=
  accepted_of_mem_keptBackwards (List.mem_reverse.mp h)

theorem sinceEnd_endtx : sinceEnd (lines ++ ["/endtx"]) = [] := by
  simp [sinceEnd]

theorem sinceEnd_other (h : line ≠ "/endtx") : sinceEnd (lines ++ [line]) = sinceEnd lines ++ [line] := by
  simp [sinceEnd, h]

theorem opened_endtx : opened (lines ++ ["/endtx"]) = [] := by
  rw [opened, sinceEnd_endtx]
  rfl

/-- A line in a transaction belongs to it. -/
theorem opened_append (hopen : "/maketx" ∈ sinceEnd lines) (h : line ≠ "/endtx") :
    opened (lines ++ [line]) = opened lines ++ [line] := by
  have hne : (sinceEnd lines).dropWhile (· != "/maketx") ≠ [] := by
    intro hnil
    have hall := List.dropWhile_eq_nil_iff.mp hnil "/maketx" hopen
    exact absurd hall (by decide)
  rw [opened, opened, sinceEnd_other h, List.dropWhile_append, if_neg (by simpa using hne),
    List.drop_append_of_le_length (List.length_pos_iff.mpr hne)]

theorem opened_closed (hclosed : "/maketx" ∉ sinceEnd lines) (h : line ≠ "/endtx") : opened (lines ++ [line]) = [] := by
  have hnil : (sinceEnd lines).dropWhile (· != "/maketx") = [] := by
    rw [List.dropWhile_eq_nil_iff]
    intro l hl
    refine bne_iff_ne.mpr ?_
    rintro rfl
    exact hclosed hl
  rw [opened, sinceEnd_other h, List.dropWhile_append, hnil]
  by_cases hline : line = "/maketx"
  · simp [hline]
  · simp [hline]

theorem opened_nil (hclosed : "/maketx" ∉ sinceEnd lines) : opened lines = [] := by
  have hnil : (sinceEnd lines).dropWhile (· != "/maketx") = [] := by
    rw [List.dropWhile_eq_nil_iff]
    intro l hl
    refine bne_iff_ne.mpr ?_
    rintro rfl
    exact hclosed hl
  rw [opened, hnil]
  rfl

end

theorem send_data_braced {text : JsonText} (hbraced : Braced text) (s : State) (fields : List (String × JsonValue))
    (response : String) : send_data s (text.dump (.object fields)) response =
      (s, [.sendData (text.dump (.object fields)), .gotResponse response]) := by
  have hhead := hbraced fields
  rw [send_data, if_neg]
  intro hcommand
  cases hdata : (text.dump (.object fields)).toList with
  | nil =>
    rw [hdata] at hhead
    cases hhead
  | cons c cs =>
    rw [hdata] at hhead hcommand
    obtain rfl := Option.some.inj hhead
    have hlist := congrArg String.toList hcommand
    rw [String.toList_ofList, List.takeWhile_cons_of_pos (by decide)] at hlist
    exact absurd (List.cons.inj hlist).1 (by decide)

/-- The loop behind the lines `lines`. -/
structure At (s : State) (session_id : String) (lines : List String) : Prop where
  client_session_id : s.client_session_id = session_id
  in_transaction : s.in_transaction = true ↔ "/maketx" ∈ sinceEnd lines
  operations : s.operations = kept (opened lines)

section

variable {text : JsonText} {s : State} {session_id : String} {lines : List String}

theorem sendTransaction_eq (hbraced : Braced text) (h : s.client_session_id = session_id) (around : Nat → Around) (n : Nat)
    (operations : List String) : sendTransaction text s (around n) operations =
      (s, [.sendData (requestText text around session_id n operations), .gotResponse (around n).response]) := by
  subst h
  rw [sendTransaction, requestText, parse_command_eq]
  exact send_data_braced hbraced s _ _

/-- A line that is neither `/maketx` nor `/endtx` leaves the transaction open or closed. -/
theorem At.other (h : At s session_id lines) {line : String} (hmaketx : line ≠ "/maketx") (hendtx : line ≠ "/endtx")
    {operations : List String}
    (hkept : s.in_transaction = true → operations = kept (opened lines ++ [line]))
    (hclosed : s.in_transaction = false → operations = []) :
    At { s with operations := operations } session_id (lines ++ [line]) where
  client_session_id := h.client_session_id
  in_transaction := by
    rw [sinceEnd_other hendtx, List.mem_append, List.mem_singleton]
    exact h.in_transaction.trans ⟨Or.inl, fun hin => hin.resolve_right hmaketx.symm⟩
  operations := by
    by_cases hin : s.in_transaction = true
    · rw [opened_append (h.in_transaction.mp hin) hendtx]
      exact hkept hin
    · rw [opened_closed (fun hmem => hin (h.in_transaction.mpr hmem)) hendtx]
      exact hclosed (Bool.eq_false_iff.mpr hin)

/-- A line that changes nothing. -/
theorem At.unchanged (h : At s session_id lines) {line : String} (hmaketx : line ≠ "/maketx") (hendtx : line ≠ "/endtx")
    (hundo : line ≠ "/undo") (hinvalid : s.in_transaction = true → (checkOperationSyntax line).1 = false) :
    At s session_id (lines ++ [line]) :=
  h.other hmaketx hendtx
    (fun hin => by rw [kept_other hundo (hinvalid hin), h.operations])
    (fun hin => by
      rw [h.operations, opened_nil (fun hmem => Bool.false_ne_true (hin.symm.trans (h.in_transaction.mpr hmem)))]
      rfl)

theorem At.operations_nil (h : At s session_id lines) (hin : s.in_transaction = false) :
    kept (opened lines) = [] ∧ s.operations = [] := by
  have hnil : kept (opened lines) = [] := by
    rw [opened_nil fun hmem => Bool.false_ne_true (hin.symm.trans (h.in_transaction.mpr hmem))]
    rfl
  exact ⟨hnil, h.operations.trans hnil⟩

theorem At.ended {t : State} (hid : t.client_session_id = session_id) (hin : t.in_transaction = false)
    (hoperations : t.operations = []) : At t session_id (lines ++ ["/endtx"]) where
  client_session_id := hid
  in_transaction := by simp [hin, sinceEnd_endtx]
  operations := by
    rw [hoperations, opened_endtx]
    rfl

theorem handle_maketx (h : At s session_id lines) (around : Around) :
    At (handle text s around "/maketx").1 session_id (lines ++ ["/maketx"]) ∧
      sent (handle text s around "/maketx").2 = [] := by
  rw [handle, if_neg (by decide), if_pos rfl]
  cases hin : s.in_transaction with
  | true =>
    have hopen := h.in_transaction.mp hin
    rw [if_pos rfl]
    refine ⟨⟨h.client_session_id, ?_, ?_⟩, rfl⟩
    · rw [sinceEnd_other (by decide)]
      exact ⟨fun _ => List.mem_append_left _ hopen, fun _ => hin⟩
    · rw [opened_append hopen (by decide), kept_other (by decide) (by decide)]
      exact h.operations
  | false =>
    have hclosed : "/maketx" ∉ sinceEnd lines := fun hmem =>
      Bool.false_ne_true (hin.symm.trans (h.in_transaction.mpr hmem))
    rw [if_neg Bool.false_ne_true]
    refine ⟨⟨h.client_session_id, ?_, ?_⟩, rfl⟩
    · rw [sinceEnd_other (by decide)]
      exact ⟨fun _ => List.mem_append_right _ List.mem_cons_self, fun _ => rfl⟩
    · rw [opened_closed hclosed (by decide)]
      rfl

theorem handle_endtx (hbraced : Braced text) (h : At s session_id lines) (around : Nat → Around) (n : Nat) :
    At (handle text s (around n) "/endtx").1 session_id (lines ++ ["/endtx"]) ∧
      sent (handle text s (around n) "/endtx").2 =
        if kept (opened lines) = [] then [] else [requestText text around session_id n (kept (opened lines))] := by
  rw [handle, if_neg (by decide), if_neg (by decide), if_pos rfl]
  cases hin : s.in_transaction with
  | true =>
    rw [if_pos rfl]
    by_cases hnil : s.operations = []
    · have hlength : ¬ s.operations.length > 0 := by simp [hnil]
      simp only [if_neg hlength]
      rw [if_pos (h.operations.symm.trans hnil)]
      exact ⟨.ended h.client_session_id rfl hnil, rfl⟩
    · simp only [if_pos (List.length_pos_iff.mpr hnil)]
      rw [sendTransaction_eq hbraced (s := { s with in_transaction := false }) h.client_session_id,
        if_neg (fun hkept => hnil (h.operations.trans hkept)), h.operations]
      exact ⟨.ended h.client_session_id rfl rfl, rfl⟩
  | false =>
    obtain ⟨hkept, hnil⟩ := h.operations_nil hin
    rw [if_neg Bool.false_ne_true, if_pos hkept]
    exact ⟨.ended h.client_session_id hin hnil, rfl⟩

theorem handle_undo (h : At s session_id lines) (around : Around) :
    At (handle text s around "/undo").1 session_id (lines ++ ["/undo"]) ∧
      sent (handle text s around "/undo").2 = [] := by
  rw [handle, if_neg (by decide), if_neg (by decide), if_neg (by decide), if_pos rfl]
  have hdrop : At { s with operations := s.operations.dropLast } session_id (lines ++ ["/undo"]) := by
    refine h.other (by decide) (by decide) (fun _ => ?_) fun hin => ?_
    · rw [kept_undo, ← h.operations]
    · rw [(h.operations_nil hin).2]
      rfl
  have hsame : s.operations = [] → At s session_id (lines ++ ["/undo"]) := by
    intro hnil
    have hdropLast : s.operations.dropLast = s.operations := by rw [hnil, List.dropLast_nil]
    rwa [hdropLast] at hdrop
  by_cases hin : s.in_transaction = true
  · rw [if_pos hin]
    cases hlast : s.operations.getLast? with
    | some operation => exact ⟨hdrop, rfl⟩
    | none => exact ⟨hsame (List.getLast?_eq_none_iff.mp hlast), rfl⟩
  · rw [if_neg hin]
    exact ⟨hsame (h.operations_nil (Bool.eq_false_iff.mpr hin)).2, rfl⟩

/-- A line that is no command. -/
theorem handle_operation (h : At s session_id lines) (around : Around) {line : String}
    (hcommand : line ∉ ["/help", "/maketx", "/endtx", "/undo", "/test"]) :
    At (handle text s around line).1 session_id (lines ++ [line]) ∧ sent (handle text s around line).2 = [] := by
  simp only [List.mem_cons, List.not_mem_nil, or_false, not_or] at hcommand
  obtain ⟨hhelp, hmaketx, hendtx, hundo, htest⟩ := hcommand
  rw [handle, if_neg hhelp, if_neg hmaketx, if_neg hendtx, if_neg hundo, if_neg htest]
  by_cases hin : s.in_transaction = true
  · rw [if_pos hin]
    cases hcheck : checkOperationSyntax line with
    | mk accepted message =>
      cases accepted with
      | true =>
        refine ⟨h.other hmaketx hendtx (fun _ => ?_) fun hfalse => absurd (hin.symm.trans hfalse) (by decide), rfl⟩
        rw [kept_accepted (by rw [hcheck]), h.operations]
      | false => exact ⟨h.unchanged hmaketx hendtx hundo fun _ => by rw [hcheck], rfl⟩
  · rw [if_neg hin]
    exact ⟨h.unchanged hmaketx hendtx hundo fun htrue => absurd htrue hin, rfl⟩

theorem request_none {line : String} (htest : line ≠ "/test") (hendtx : line ≠ "/endtx") : request lines line = none := by
  rw [request, if_neg htest, if_neg fun h => hendtx h.1]

/-- One turn: the state, and what is sent. -/
theorem handle_at (hbraced : Braced text) (h : At s session_id lines) (around : Nat → Around) (n : Nat) (line : String) :
    At (handle text s (around n) line).1 session_id (lines ++ [line]) ∧
      sent (handle text s (around n) line).2 =
        ((request lines line).map (requestText text around session_id n)).toList := by
  by_cases hcommand : line ∉ ["/help", "/maketx", "/endtx", "/undo", "/test"]
  · rw [request_none (fun heq => hcommand (by simp [heq])) fun heq => hcommand (by simp [heq])]
    exact handle_operation h (around n) hcommand
  simp only [List.mem_cons, List.not_mem_nil, or_false, not_not] at hcommand
  rcases hcommand with rfl | rfl | rfl | rfl | rfl
  · exact ⟨h.unchanged (by decide) (by decide) (by decide) fun _ => by decide, rfl⟩
  · rw [request_none (by decide) (by decide)]
    exact handle_maketx h (around n)
  · obtain ⟨hat, hsent⟩ := handle_endtx hbraced h around n
    refine ⟨hat, hsent.trans ?_⟩
    have htest : "/endtx" ≠ "/test" := by decide
    by_cases hnil : kept (opened lines) = []
    · rw [if_pos hnil, request, if_neg htest, if_neg fun hkept => hkept.2 hnil]
      rfl
    · rw [if_neg hnil, request, if_neg htest, if_pos ⟨rfl, hnil⟩]
      rfl
  · rw [request_none (by decide) (by decide)]
    exact handle_undo h (around n)
  · have hsend := sendTransaction_eq hbraced h.client_session_id around n testOperations
    rw [handle, if_neg (by decide), if_neg (by decide), if_neg (by decide), if_neg (by decide), if_pos rfl, hsend]
    exact ⟨h.unchanged (by decide) (by decide) (by decide) fun _ => by decide, rfl⟩

theorem sent_append (a b : List Output) : sent (a ++ b) = sent a ++ sent b := List.filterMap_append ..

theorem requestAt_none (before : List String) (rest : List String) (i : Nat) :
    requestAt (before ++ "/exit" :: rest) (before.length + i) = none := by
  rw [requestAt]
  cases i with
  | zero =>
    rw [Nat.add_zero, List.getElem?_append_right (Nat.le_refl _), Nat.sub_self, List.take_left' rfl]
    split
    · rfl
    · exact request_none (by decide) (by decide)
  | succ i =>
    rw [if_pos]
    rw [List.take_append]
    refine List.mem_append_right _ ?_
    rw [Nat.add_sub_cancel_left, List.take_succ_cons]
    exact List.mem_cons_self

theorem requestAt_cons {before : List String} (hexit : "/exit" ∉ before) (line : String) (rest : List String) :
    requestAt (before ++ line :: rest) before.length = request before line := by
  rw [requestAt, List.take_left' rfl, if_neg hexit, List.getElem?_append_right (Nat.le_refl _), Nat.sub_self]
  rfl

/-- The loop behind `before`, over what is left. -/
theorem sent_commandLoop (hbraced : Braced text) (around : Nat → Around) {before : List String} (hexit : "/exit" ∉ before)
    (h : At s session_id before) (rest : List String) :
    sent (commandLoop text around before.length s rest) = (List.range rest.length).filterMap fun i =>
      (requestAt (before ++ rest) (before.length + i)).map (requestText text around session_id (before.length + i)) := by
  induction rest generalizing before s with
  | nil => rfl
  | cons line rest ih =>
    rw [commandLoop]
    by_cases hline : line = "/exit"
    · subst hline
      rw [if_pos rfl]
      simp only [requestAt_none, Option.map_none]
      exact (List.filterMap_eq_nil_iff.mpr fun _ _ => rfl).symm
    rw [if_neg hline]
    obtain ⟨hat, hsent⟩ := handle_at hbraced h around before.length line
    have hexit' : "/exit" ∉ before ++ [line] := by
      simpa [hexit] using Ne.symm hline
    have hrest := ih hexit' hat
    rw [List.length_append, List.length_singleton] at hrest
    rw [List.length_cons, List.range_succ_eq_map, List.filterMap_cons, List.filterMap_map]
    change sent ([.prompt s.operations s.in_transaction] ++ _ ++ _) = _
    rw [sent_append, sent_append, hsent, hrest]
    have happend : before ++ [line] ++ rest = before ++ line :: rest := by simp
    have hshift : ∀ i, before.length + 1 + i = before.length + (i + 1) := fun i => by omega
    simp only [happend, hshift, Function.comp_def, Nat.succ_eq_add_one, Nat.add_zero, requestAt_cons hexit]
    cases request before line <;> rfl

end

theorem request_session_id_eq (s : State) (around : Around) : request_session_id s around =
    ({ s with client_session_id := around.response },
      [.sendData ("/get_session_id" ++ " " ++ toString around.timestamp_sec ++ " " ++ toString around.timestamp_nsec),
        .gotSessionId around.response]) := by
  have htoken : ∀ rest : String, String.ofList (("/get_session_id" ++ " " ++ rest).toList.takeWhile (· != ' ')) =
      "/get_session_id" := by
    intro rest
    have hspace : (" " ++ rest).toList = ' ' :: rest.toList := by
      rw [String.toList_append]
      rfl
    have hcommand : ("/get_session_id".toList.all (· != ' ')) = true := rfl
    rw [String.append_assoc, String.toList_append, hspace, List.takeWhile_append_of_pos (List.all_eq_true.mp hcommand),
      List.takeWhile_cons_of_neg (by decide), List.append_nil, String.ofList_toList]
  rw [request_session_id, send_data, if_pos]
  rw [String.append_assoc, String.append_assoc]
  exact htoken _

/-- The whole run of a client: the command for the session ID, and then one request for each line that
asks for one, in the order of the lines. -/
theorem sent_client {text : JsonText} (hbraced : Braced text) (connected : Around) (around : Nat → Around)
    (input : List Char) :
    (client text connected around input).map sent =
      if connected.response = "" then none
      else some (("/get_session_id" ++ " " ++ toString connected.timestamp_sec ++ " " ++
          toString connected.timestamp_nsec) ::
        (List.range (getlines [] input).length).filterMap fun n =>
          (requestAt (getlines [] input) n).map (requestText text around connected.response n)) := by
  rw [client, request_session_id_eq]
  simp only [handle_command]
  by_cases hempty : connected.response = ""
  · rw [if_pos hempty, if_pos hempty]
    rfl
  · have hat : At ⟨connected.response, [], false⟩ connected.response [] := ⟨rfl, by simp [sinceEnd], rfl⟩
    have hloop := sent_commandLoop hbraced around List.not_mem_nil hat (getlines [] input)
    simp only [List.length_nil, List.nil_append, Nat.zero_add] at hloop
    rw [if_neg hempty, if_neg hempty, ← hloop]
    rfl

theorem braced_compactText : Braced compactText := by
  intro fields
  cases fields <;> exact congrArg List.head? (String.toList_ofList (l := _))

/-- A session with an operation that is taken back, a line that is no operation and one behind the last newline. -/
theorem sent_client_undo :
    (client compactText ⟨0, 0, "AB12CD"⟩ (fun n => ⟨n, 0, ""⟩)
      "/maketx\nREAD a\nREAD b\n/undo\nREAD\n/endtx\n/test".toList).map sent =
      some ["/get_session_id 0 0", compactText.dump (parse_command 5 0 "AB12CD" ["READ a"])] := by
  rw [sent_client braced_compactText]
  decide +kernel

end Cassa.Client
