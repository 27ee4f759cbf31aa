import Cassa.Client.Session
import Cassa.Server.Wire

/-!
# From the keyboard to the worker

What a client sends for the lines that were typed, as `json_to_procedures` takes it. A line with RMW is
accepted by the client and is no operation for the server, which has stored the timestamp by then.
-/

namespace Cassa.Server.Wire

open Cassa.SiloCC Cassa.SiloCC.Serial Cassa.Client

def isRmw (line : String) : Bool := decide ((words line).head? = some "RMW")

/-- An accepted line is an operation, of a kind that the server knows unless it is RMW. -/
theorem accepted_operation {line : String} (haccepted : (checkOperationSyntax line).1 = true) :
    ∃ o : Operation, parseOperation line = some (operationJson o) ∧ (operationJson o).plain = true ∧
      if isRmw line then o.toProcedure = none else ∃ p, o.toProcedure = some p ∧ spelling p = words line := by
  by_cases hrmw : isRmw line = true
  · have hrmw' : (words line).head? = some "RMW" := of_decide_eq_true hrmw
    obtain ⟨key, value, hw, hkey, hvalue⟩ : ∃ key value, words line = ["RMW", key, value] ∧ isAscii key = true ∧
        isAscii value = true := by
      rcases (checkOperationSyntax_iff line).mp haccepted with
        ⟨op, key, value, hw, -, hkey, hvalue⟩ | ⟨op, key, hw, hop, -⟩ | ⟨l, lx, r, rx, hw, -, -⟩
      · rw [hw] at hrmw'
        obtain rfl := Option.some.inj hrmw'
        exact ⟨key, value, hw, hkey, hvalue⟩
      · rw [hw] at hrmw'
        obtain rfl := Option.some.inj hrmw'
        exact absurd hop (by decide)
      · rw [hw] at hrmw'
        exact absurd (Option.some.inj hrmw') (by decide)
    refine ⟨⟨"RMW", key, some value, "", false, "", false⟩, ?_, ?_, ?_⟩
    · have hline := IStringStream.Has.of line
      rw [hw] at hline
      obtain ⟨s₁, h₁, hs₁⟩ := hline.next
      obtain ⟨s₂, h₂, hs₂⟩ := hs₁.next
      obtain ⟨s₃, h₃, -⟩ := hs₂.next
      rw [parseOperation, h₁]
      simp only [h₂, h₃, beq_iff_eq]
      simp +decide only [JsonValue.ofList, JsonValue.set, JsonValue.set.insert, List.foldl, if_false, if_true]
      rfl
    · refine plain_operationJson (show isAscii "RMW" = true by decide) hkey ?_ rfl rfl
      intro v hv
      obtain rfl := Option.some.inj hv
      exact hvalue
    · rw [if_pos hrmw]
      rfl
  · obtain ⟨p, hspell, hparse, hplain⟩ := accepted_line haccepted fun h => hrmw (decide_eq_true h)
    refine ⟨operationOf p, hparse, hplain, ?_⟩
    rw [if_neg hrmw]
    exact ⟨p, toProcedure_operationOf p, hspell.symm⟩

/-- The procedures of the lines before the first RMW. -/
theorem accepted_operations {lines : List String} (haccepted : ∀ line ∈ lines, (checkOperationSyntax line).1 = true) :
    ∃ os : List Operation, lines.filterMap parseOperation = os.map operationJson ∧
      (∀ o ∈ os, (operationJson o).plain = true) ∧
      ∃ ps, convertOperations os = (ps, !lines.any isRmw) ∧
        ps.map spelling = (lines.takeWhile (!isRmw ·)).map words := by
  induction lines with
  | nil => exact ⟨[], rfl, nofun, [], rfl, rfl⟩
  | cons line lines ih =>
    obtain ⟨o, hparse, hplain, hproc⟩ := accepted_operation (haccepted line List.mem_cons_self)
    obtain ⟨os, hparses, hplains, ps, hconvert, hspell⟩ := ih fun l hl => haccepted l (List.mem_cons_of_mem _ hl)
    refine ⟨o :: os, ?_, List.forall_mem_cons.mpr ⟨hplain, hplains⟩, ?_⟩
    · rw [List.filterMap_cons, hparse, hparses]
      rfl
    rw [convertOperations, List.any_cons]
    by_cases hrmw : isRmw line = true
    · rw [if_pos hrmw] at hproc
      rw [hproc, hrmw, List.takeWhile_cons_of_neg (by simp [hrmw])]
      exact ⟨[], rfl, rfl⟩
    · rw [if_neg hrmw] at hproc
      obtain ⟨p, hp, hspellp⟩ := hproc
      rw [hp, Bool.eq_false_iff.mpr hrmw, List.takeWhile_cons_of_pos (by simp [hrmw]), Bool.false_or, hconvert]
      refine ⟨p :: ps, rfl, ?_⟩
      rw [List.map_cons, List.map_cons, hspellp, hspell]

theorem accepted_of_request {lines : List String} {n : Nat} {operations : List String}
    (h : requestAt lines n = some operations) :
    operations ≠ [] ∧ ∀ line ∈ operations, (checkOperationSyntax line).1 = true := by
  rw [requestAt] at h
  split at h
  · cases h
  obtain ⟨line, -, hrequest⟩ := Option.bind_eq_some_iff.mp h
  rw [request] at hrequest
  split at hrequest
  · obtain rfl := Option.some.inj hrequest
    exact ⟨by decide, by decide⟩
  split at hrequest
  · rename_i hkept
    obtain rfl := Option.some.inj hrequest
    exact ⟨hkept.2, fun l hl => accepted_of_mem_kept hl⟩
  · cases hrequest

variable {W : Type} [DecidableEq W]

section
omit [DecidableEq W]

/-- The request that is sent in turn `n`, taken while the latest timestamp of the session is older. -/
theorem requestText_taken (text : JsonText) (around : Nat → Around) {session_id : String} (hid : isAscii session_id = true)
    {n : Nat} (hsec : IsLong (around n).timestamp_sec) (hnsec : IsLong (around n).timestamp_nsec)
    {operations : List String} (haccepted : ∀ line ∈ operations, (checkOperationSyntax line).1 = true)
    (s : Server.State W String) (x : Executor String)
    (hnewer : 0 < compare_timestamps (around n).timestamp_sec (around n).timestamp_nsec
      (s.getTimestampSec session_id) (s.getTimestampNsec session_id)) :
    ∃ procedures : List (Procedure String String),
      json_to_procedures text s x (requestText text around session_id n operations) =
        some (if operations.any isRmw then -2 else 0,
          s.setTimestamp session_id (around n).timestamp_sec (around n).timestamp_nsec,
          { x with session_id_ := session_id, pro_set_ := procedures }) ∧
      procedures.map spelling = (operations.takeWhile (!isRmw ·)).map words := by
  obtain ⟨os, hparse, hplain, ps, hconvert, hspell⟩ := accepted_operations haccepted
  refine ⟨ps, ?_, hspell⟩
  set r : Request String := ⟨session_id, (around n).timestamp_sec, (around n).timestamp_nsec, os⟩ with hr
  have hjson : parse_command (around n).timestamp_sec (around n).timestamp_nsec session_id operations =
      requestJson r := by
    rw [parse_command_eq, hparse]
    rfl
  rw [requestText, hjson, json_to_procedures_dump text s x (plain_requestJson hid hsec hnsec hplain) hsec hnsec,
    Server.json_to_procedures, if_neg (not_le.mpr hnewer)]
  simp only [hr, hconvert]
  cases operations.any isRmw <;> rfl

/-- Whatever is typed: a request that the client sends is the one of a line that asks for it, and a
worker that finds an older timestamp of the session takes it with the procedures of its lines, spelled
as they were typed. Only RMW makes it refuse the request; then it has the procedures before it. -/
theorem typed_requests_reach_pro_set {text : JsonText} (hbraced : Braced text) {connected : Around}
    (hid : isAscii connected.response = true) {around : Nat → Around}
    (hlong : ∀ n, IsLong (around n).timestamp_sec ∧ IsLong (around n).timestamp_nsec)
    {typed : List String} (htyped : ∀ line ∈ typed, '\n' ∉ line.toList) {last : List Char} (hlast : '\n' ∉ last)
    {outputs : List Output}
    (hrun : client text connected around (typed.flatMap (fun line => line.toList ++ ['\n']) ++ last) = some outputs) :
    ∀ data ∈ (sent outputs).tail, ∃ n operations, requestAt typed n = some operations ∧ operations ≠ [] ∧
      ∀ (s : State W String) (x : Executor String),
        0 < compare_timestamps (around n).timestamp_sec (around n).timestamp_nsec
          (s.getTimestampSec connected.response) (s.getTimestampNsec connected.response) →
        ∃ procedures : List (Procedure String String),
          json_to_procedures text s x data =
            some (if operations.any isRmw then -2 else 0,
              s.setTimestamp connected.response (around n).timestamp_sec (around n).timestamp_nsec,
              { x with session_id_ := connected.response, pro_set_ := procedures }) ∧
          procedures.map spelling = (operations.takeWhile (!isRmw ·)).map words := by
  intro data hdata
  rw [client, request_session_id_eq] at hrun
  obtain ⟨rest, hhandle, rfl⟩ := Option.map_eq_some_iff.mp hrun
  rw [handle_command] at hhandle
  split at hhandle
  · cases hhandle
  obtain rfl := Option.some.inj hhandle
  have hat : At ⟨connected.response, [], false⟩ connected.response [] := ⟨rfl, by simp [sinceEnd], rfl⟩
  have hloop := sent_commandLoop hbraced around List.not_mem_nil hat typed
  simp only [List.length_nil, List.nil_append, Nat.zero_add] at hloop
  rw [getlines_typed htyped hlast] at hdata
  replace hdata : data ∈ sent (commandLoop text around 0 ⟨connected.response, [], false⟩ typed) := hdata
  rw [hloop] at hdata
  obtain ⟨n, -, htext⟩ := List.mem_filterMap.mp hdata
  obtain ⟨operations, hrequest, rfl⟩ := Option.map_eq_some_iff.mp htext
  obtain ⟨hne, haccepted⟩ := accepted_of_request hrequest
  exact ⟨n, operations, hrequest, hne, fun s x hnewer =>
    requestText_taken text around hid (hlong n).1 (hlong n).2 haccepted s x hnewer⟩

end

/-- A transaction with an operation that is taken back. -/
def undoSession : List String := ["/maketx", "INSERT a b", "READ b", "/undo", "/endtx", "/exit"]

def undoOutputs : List Output :=
  (client compactText ⟨0, 0, "AB12CD"⟩ (fun n => ⟨n % 7, 0, ""⟩)
    (undoSession.flatMap fun line => line.toList ++ ['\n'])).getD []

theorem undoSession_runs : client compactText ⟨0, 0, "AB12CD"⟩ (fun n => ⟨n % 7, 0, ""⟩)
    (undoSession.flatMap (fun line => line.toList ++ ['\n']) ++ []) = some undoOutputs := by
  decide +kernel

theorem typed_requests_reach_pro_set_undo : ∃ data, sent undoOutputs = ["/get_session_id 0 0", data] ∧
    ∃ n operations, requestAt undoSession n = some operations ∧ operations ≠ [] ∧
      ∀ (s : State Unit String) (x : Executor String),
        0 < compare_timestamps ((n % 7 : Nat) : Int) 0 (s.getTimestampSec "AB12CD") (s.getTimestampNsec "AB12CD") →
        ∃ procedures : List (Procedure String String),
          json_to_procedures compactText s x data =
            some (if operations.any isRmw then -2 else 0, s.setTimestamp "AB12CD" ((n % 7 : Nat) : Int) 0,
              { x with session_id_ := "AB12CD", pro_set_ := procedures }) ∧
          procedures.map spelling = (operations.takeWhile (!isRmw ·)).map words := by
  have hlong : ∀ n, IsLong ((n % 7 : Nat) : Int) ∧ IsLong 0 := by
    intro n
    unfold IsLong
    omega
  have hsent : sent undoOutputs =
      ["/get_session_id 0 0", compactText.dump (parse_command 4 0 "AB12CD" ["INSERT a b"])] := by
    decide +kernel
  refine ⟨_, hsent, ?_⟩
  exact typed_requests_reach_pro_set braced_compactText (by decide) hlong (by decide) (by decide) undoSession_runs _
    (by rw [hsent]; exact List.mem_singleton_self _)

end Cassa.Server.Wire
