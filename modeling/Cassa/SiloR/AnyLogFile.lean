import Cassa.Common.Json
import Cassa.Lib.Halting
import Cassa.SiloR.LogFile
import Cassa.SiloR.TreeIndex

/-!
# Recovery from any log files

`execute_recovery` on the bytes of the log files, turn by turn: a record is fetched, a log file is
verified, a record is replayed into Masstree. `read_file` ignores what the OCALL returns, the
exceptions of the JSON library are not caught, and `WRITE` follows the pointer that it gets. Every turn
makes the work that is left smaller, so recovery ends. The epoch counter is not taken round 2 ^ 64.
-/

namespace Cassa.SiloR.AnyLogFile

open Cassa.SiloCC Cassa.Masstree Cassa.Lib.Halting

abbrev LogSet := RecoveryLogSet String String String

abbrev Record := RecoveryLogRecord String String String

def tidOf (tid : Nat) : TIDword :=
  ⟨tid.testBit 0, tid.testBit 1, tid.testBit 2, BitVec.ofNat 29 (tid / 2 ^ 3), BitVec.ofNat 32 (tid / 2 ^ 32)⟩

def getString (j : JsonValue) (key : String) : Option String := (j.get? key).bind JsonValue.toString?

def getNumber (j : JsonValue) (key : String) : Option Nat := (j.get? key).bind JsonValue.toUInt64?

/-- One item of `log_set`; `none` is an exception, or the assertion on a missing field. -/
def readRecord (item : JsonValue) : Option Record := do
  let tid ← getNumber item "tid"
  let op_type ← getString item "op_type"
  let key ← getString item "key"
  let value ← getString item "val"
  let prev_hash ← match item.get? "prev_hash" with
    | none => some ""
    | some prev_hash => prev_hash.toString?
  some ⟨tidOf tid, op_type, key, value, prev_hash⟩

/-- `log_record_num_` is not set where there is no header; nothing reads it. -/
def readHeader (json_data : JsonValue) : Option (Nat × String) :=
  match json_data.get? "log_header" with
  | some (.object fields) => do
    let log_record_num ← getNumber (.object fields) "log_record_num"
    let prev_epoch_hash ← getString (.object fields) "prev_epoch_hash"
    some (log_record_num, prev_epoch_hash)
  | _ => some (0, "")

def readRecords (json_data : JsonValue) : Option (List Record) :=
  match json_data.get? "log_set" with
  | some (.array items) => items.mapM readRecord
  | _ => some []

/-- `deserialize_log_set` up to the epoch, which it takes from the last record. -/
def readDocument (json_data : JsonValue) : Option (JsonLog String String String) := do
  let (log_record_num, prev_epoch_hash) ← readHeader json_data
  let log_set ← readRecords json_data
  some ⟨prev_epoch_hash, log_record_num, log_set⟩

/-- A log file with its archive. -/
structure OpenLog where
  bytes : List UInt8
  current_read_offset_ : Nat
  archive : RecoveryLogArchive String String String

/-- Where the loop over the epochs is. -/
inductive Phase where
  | reading (done todo : List OpenLog)
  | verifying (done todo : List OpenLog) (current_epoch_log_records_ : List Record)
  | replaying (archives : List OpenLog) (records : List Record)
  | ending (archives : List OpenLog)

structure Recovering where
  current_epoch_ : Nat
  masstree : Store String
  overran : Bool
  phase : Phase

inductive Outcome where
  | returned (code : Int)
  /-- one of the JSON library escapes, or its assertion on a missing field fails -/
  | exception
  /-- `front()` or `back()` of a vector without elements -/
  | noRecords
  /-- the assertion in the constructor of `Key` fails -/
  | emptyKey
  /-- the null pointer that `get_value` returns is followed -/
  | nullRecord
  /-- a call of Masstree does not come back -/
  | masstree
  deriving DecidableEq

structure Ending where
  outcome : Outcome
  overran : Bool

/-- What the code is compiled with, and the durable epoch. -/
structure Setup where
  parse : List UInt8 → Option JsonValue
  hash : Hash String String String
  sort : TidSort String String String
  durable_epoch_ : Nat

variable (u : Setup)

/-- The length or the record is not all in the file. -/
def overruns (bytes : List UInt8) (offset : Nat) : Bool :=
  decide (bytes.length < offset + 8 + ofLittleEndian (read_file bytes offset 8))

/-- The loop is left for the next file. -/
def OpenLog.skips (a : OpenLog) (current_epoch : Nat) : Bool :=
  a.archive.is_all_data_read_ || decide (a.bytes.length ≤ a.current_read_offset_) ||
    frontIsLater current_epoch a.archive.buffered_log_records_

/-- `front()` of a set without records. -/
def OpenLog.hollowFront (a : OpenLog) : Bool :=
  !a.archive.is_all_data_read_ && decide (a.current_read_offset_ < a.bytes.length) &&
    a.archive.buffered_log_records_.head?.any (·.log_sets_.isEmpty)

def fetchTurn (s : Recovering) (done : List OpenLog) (a : OpenLog) (todo : List OpenLog) :
    Recovering ⊕ Ending :=
  let (log_record_string, offset) := fetch_next_log_record a.bytes a.current_read_offset_
  let s := { s with overran := s.overran || overruns a.bytes a.current_read_offset_ }
  let a := { a with current_read_offset_ := offset }
  if log_record_string.isEmpty then
    let a := { a with archive := { a.archive with is_all_data_read_ := true } }
    .inl { s with phase := .reading (done ++ [a]) todo }
  else if a.archive.is_last_log_hash_matched then .inr ⟨.returned (-1), s.overran⟩
  else match (u.parse log_record_string).bind readDocument with
    | none => .inr ⟨.exception, s.overran⟩
    | some json_data =>
      match deserialize_log_set json_data with
      | none => .inr ⟨.noRecords, s.overran⟩
      | some log_set =>
        let buffered_log_records := a.archive.buffered_log_records_ ++ [log_set]
        let a := { a with archive := { a.archive with buffered_log_records_ := buffered_log_records } }
        .inl { s with phase := .reading done (a :: todo) }

/-- `back()` of a set without records, in `verify_log_level_integrity`. -/
def OpenLog.hollow (a : OpenLog) : Bool := a.archive.buffered_log_records_.any (·.log_sets_.isEmpty)

def verifyTurn (s : Recovering) (done : List OpenLog) (a : OpenLog) (todo : List OpenLog)
    (records : List Record) : Recovering ⊕ Ending :=
  match verify_epoch_level_integrity u.hash (BitVec.ofNat 32 s.current_epoch_) a.archive records with
  | .error _ => .inr ⟨.returned (-1), s.overran⟩
  | .ok (archive, records) =>
    .inl { s with phase := .verifying (done ++ [{ a with archive := archive }]) todo records }

/-- The bytes of a `std::string`. -/
def utf8 (s : String) : List UInt8 := s.toUTF8.data.toList

/-- What a replay that does not come back has died of. -/
def replayFault (masstree : Store String) (r : Record) : Outcome :=
  if utf8 r.key_ = [] then .emptyKey
  else if r.operation_type_ = "WRITE" ∧ masstree.masstree.get_value (.ofString (utf8 r.key_)) = some none then
    .nullRecord
  else .masstree

def replayTurn (s : Recovering) (archives : List OpenLog) (r : Record) (records : List Record) :
    Recovering ⊕ Ending :=
  match replayRecord (treeIndex utf8) s.masstree r with
  | .ok masstree => .inl { s with masstree := masstree, phase := .replaying archives records }
  | .error .minusOne => .inr ⟨.returned (-1), s.overran⟩
  | .error .fault => .inr ⟨replayFault s.masstree r, s.overran⟩

def step (s : Recovering) : Recovering ⊕ Ending :=
  match s.phase with
  | .reading done [] => .inl { s with phase := .verifying [] done [] }
  | .reading done (a :: todo) =>
    if a.hollowFront then .inr ⟨.noRecords, s.overran⟩
    else if a.skips s.current_epoch_ then .inl { s with phase := .reading (done ++ [a]) todo }
    else fetchTurn u s done a todo
  | .verifying done [] records => .inl { s with phase := .replaying done (u.sort.sort records) }
  | .verifying done (a :: todo) records =>
    if a.hollow then .inr ⟨.noRecords, s.overran⟩ else verifyTurn u s done a todo records
  | .replaying archives [] =>
    if s.current_epoch_ + 1 ≤ u.durable_epoch_ then
      .inl { s with current_epoch_ := s.current_epoch_ + 1, phase := .reading [] archives }
    else .inl { s with phase := .ending archives }
  | .replaying archives (r :: records) => replayTurn s archives r records
  | .ending archives =>
    if archives.all (·.archive.is_last_log_hash_matched) then .inr ⟨.returned 0, s.overran⟩
    else .inr ⟨.returned (-1), s.overran⟩

/-- Before the first turn, with a slot of `pepoch.seal` for each log file. -/
def start (last_log_hashes : List (Option String)) (files : Nat → List UInt8) : Recovering where
  current_epoch_ := 0
  masstree := (treeIndex utf8).new
  overran := false
  phase := .reading [] (last_log_hashes.mapIdx fun i last => ⟨files i, 0, .new u.hash last []⟩)

/-- How `execute_recovery` ends. -/
def Recovers (last_log_hashes : List (Option String)) (files : Nat → List UInt8) (e : Ending) : Prop :=
  Halts (step u) (start u last_log_hashes files) e

/-- It returns 0 or -1, and has not read past the end of a file. -/
def Ending.Fine (e : Ending) : Prop :=
  (e.outcome = .returned 0 ∨ e.outcome = .returned (-1)) ∧ e.overran = false

/-- The text of a document with log records. -/
def Usable (parse : List UInt8 → Option JsonValue) (text : List UInt8) : Prop :=
  ∃ json_data document, parse text = some json_data ∧ readDocument json_data = some document ∧
    document.log_set ≠ []

/-- The bytes begin with a frame, which is empty or can be used. -/
def FrameFirst (parse : List UInt8 → Option JsonValue) (bytes : List UInt8) : Prop :=
  ∃ text : List UInt8, text.length < 2 ^ 64 ∧ littleEndian 8 text.length ++ text <+: bytes ∧
    (text = [] ∨ Usable parse text)

/-- Frames that can be used, up to the end or to an empty one. -/
inductive Framed (parse : List UInt8 → Option JsonValue) : List UInt8 → Prop
  | nil : Framed parse []
  | empty (rest : List UInt8) : Framed parse (littleEndian 8 0 ++ rest)
  | document (text rest : List UInt8) : text.length < 2 ^ 64 → Usable parse text → Framed parse rest →
      Framed parse (littleEndian 8 text.length ++ (text ++ rest))

/-- Bytes that are there are read as they are. -/
theorem read_file_of_isPrefix {file bs : List UInt8} {offset : Nat} (h : bs <+: file.drop offset) :
    read_file file offset bs.length = bs := by
  obtain ⟨post, hpost⟩ := h
  rw [read_file, ← hpost, List.take_left, List.rightpad, Nat.sub_self, List.replicate_zero, List.append_nil]

/-- A frame that lies in the file is fetched as it is. -/
theorem fetch_of_frame {bytes text : List UInt8} {offset : Nat} (hlen : text.length < 2 ^ 64)
    (hframe : littleEndian 8 text.length ++ text <+: bytes.drop offset) :
    fetch_next_log_record bytes offset = (text, offset + 8 + text.length) ∧ overruns bytes offset = false := by
  have hsize : read_file bytes offset 8 = littleEndian 8 text.length := by
    have hread := read_file_of_isPrefix ((List.prefix_append _ text).trans hframe)
    rwa [length_littleEndian] at hread
  have hlength : ofLittleEndian (read_file bytes offset 8) = text.length := by
    rw [hsize, ofLittleEndian_littleEndian hlen]
  have htext : text <+: bytes.drop (offset + 8) := by
    obtain ⟨post, hpost⟩ := hframe
    refine ⟨post, ?_⟩
    rw [← List.drop_drop, ← hpost, List.append_assoc]
    exact (List.drop_left' (length_littleEndian 8 _)).symm
  have hfit := hframe.length_le
  rw [List.length_append, length_littleEndian, List.length_drop] at hfit
  constructor
  · rw [fetch_next_log_record, hlength, read_file_of_isPrefix htext]
  · rw [overruns, hlength, decide_eq_false_iff_not]
    omega

/-- What is fetched without an overrun is a frame of the file. -/
theorem frame_of_fetch {bytes : List UInt8} {offset : Nat} (hfit : overruns bytes offset = false) :
    (fetch_next_log_record bytes offset).1.length < 2 ^ 64 ∧
      littleEndian 8 (fetch_next_log_record bytes offset).1.length ++ (fetch_next_log_record bytes offset).1 <+:
        bytes.drop offset := by
  rw [overruns, decide_eq_false_iff_not, not_lt] at hfit
  set log_length := ofLittleEndian (read_file bytes offset 8) with hlength
  have hread : ∀ (from_ size : Nat), from_ + size ≤ bytes.length →
      read_file bytes from_ size = (bytes.drop from_).take size := by
    intro from_ size hle
    rw [read_file, List.rightpad, List.length_take, List.length_drop, Nat.min_eq_left (by omega), Nat.sub_self,
      List.replicate_zero, List.append_nil]
  have hsize : (read_file bytes offset 8).length = 8 := by
    rw [hread offset 8 (by omega), List.length_take, List.length_drop]
    omega
  have hbytes : littleEndian 8 log_length = read_file bytes offset 8 := by
    have hinv := littleEndian_ofLittleEndian (read_file bytes offset 8)
    rwa [hsize] at hinv
  have htext : (fetch_next_log_record bytes offset).1 = (bytes.drop (offset + 8)).take log_length := by
    rw [fetch_next_log_record]
    exact hread (offset + 8) log_length hfit
  have hlen : ((bytes.drop (offset + 8)).take log_length).length = log_length := by
    rw [List.length_take, List.length_drop]
    omega
  rw [htext, hlen]
  constructor
  · have hlt := ofLittleEndian_lt (read_file bytes offset 8)
    rwa [hsize, ← hlength] at hlt
  · refine ⟨bytes.drop (offset + 8 + log_length), ?_⟩
    rw [hbytes, hread offset 8 (by omega), List.append_assoc, ← List.drop_drop (i := log_length),
      List.take_append_drop, ← List.drop_drop, List.take_append_drop]

theorem frameFirst_iff {parse : List UInt8 → Option JsonValue} (bytes : List UInt8) (offset : Nat) :
    FrameFirst parse (bytes.drop offset) ↔ overruns bytes offset = false ∧
      ((fetch_next_log_record bytes offset).1 = [] ∨ Usable parse (fetch_next_log_record bytes offset).1) := by
  constructor
  · rintro ⟨text, hlen, hframe, htext⟩
    obtain ⟨hfetch, hfit⟩ := fetch_of_frame hlen hframe
    rw [hfetch]
    exact ⟨hfit, htext⟩
  · rintro ⟨hfit, htext⟩
    obtain ⟨hlen, hframe⟩ := frame_of_fetch hfit
    exact ⟨_, hlen, hframe, htext⟩

/-- The rest of a file of frames. -/
theorem Framed.next {parse : List UInt8 → Option JsonValue} {bytes : List UInt8} {offset : Nat}
    (h : Framed parse (bytes.drop offset)) (hmore : offset < bytes.length) :
    FrameFirst parse (bytes.drop offset) ∧ ((fetch_next_log_record bytes offset).1 ≠ [] →
      Framed parse (bytes.drop (fetch_next_log_record bytes offset).2)) := by
  generalize hrest : bytes.drop offset = rest at h
  cases h with
  | nil =>
    have hle := List.drop_eq_nil_iff.mp hrest
    omega
  | empty rest =>
    have hframe : littleEndian 8 ([] : List UInt8).length ++ [] <+: bytes.drop offset := by
      rw [hrest, List.append_nil]
      exact List.prefix_append ..
    have hfetch := (fetch_of_frame (by decide) hframe).1
    rw [hfetch, ← hrest]
    exact ⟨⟨[], by decide, hframe, Or.inl rfl⟩, fun hne => absurd rfl hne⟩
  | document text rest hlen htext hframed =>
    have hframe : littleEndian 8 text.length ++ text <+: bytes.drop offset := by
      rw [hrest, ← List.append_assoc]
      exact List.prefix_append ..
    have hfetch := (fetch_of_frame hlen hframe).1
    have hdrop : bytes.drop (offset + 8 + text.length) = rest := by
      rw [Nat.add_assoc, ← List.drop_drop, hrest, ← List.append_assoc]
      refine List.drop_left' ?_
      rw [List.length_append, length_littleEndian]
    rw [hfetch, hdrop, ← hrest]
    exact ⟨⟨text, hlen, hframe, Or.inr htext⟩, fun _ => hframed⟩

theorem deserialize_log_set_eq_none {json_data : JsonLog String String String} :
    deserialize_log_set json_data = none ↔ json_data.log_set = [] := by
  rw [deserialize_log_set]
  cases h : json_data.log_set.getLast? with
  | none => simpa using h
  | some r =>
    have hne : json_data.log_set ≠ [] := by
      intro hnil
      rw [hnil] at h
      cases h
    simp [hne]

def Phase.archives : Phase → List OpenLog
  | .reading done todo => done ++ todo
  | .verifying done todo _ => done ++ todo
  | .replaying archives _ => archives
  | .ending archives => archives

/-- What follows a turn: nothing has been read past an end, and there is no fault. -/
def Clean (next : Recovering ⊕ Ending) : Prop :=
  (∀ s', next = .inl s' → s'.overran = false) ∧ ∀ e, next = .inr e → e.Fine

@[simp] theorem clean_inl (s : Recovering) : Clean (.inl s) ↔ s.overran = false := by
  simp [Clean]

@[simp] theorem clean_inr (e : Ending) : Clean (.inr e) ↔ e.Fine := by
  simp [Clean]

section

variable {u} {s : Recovering}

theorem hollow_eq_false {a : OpenLog} (h : Filled a.archive) : a.hollow = false := by
  rw [OpenLog.hollow, List.any_eq_false]
  intro set hset
  simpa using h set hset

theorem hollowFront_eq_false {a : OpenLog} (h : Filled a.archive) : a.hollowFront = false := by
  have hfront : a.archive.buffered_log_records_.head?.any (·.log_sets_.isEmpty) = false := by
    cases hb : a.archive.buffered_log_records_ with
    | nil => rfl
    | cons set sets =>
      have hne := h set (by simp [hb])
      simpa using hne
  rw [OpenLog.hollowFront, hfront, Bool.and_false]

theorem clean_fetchTurn (done : List OpenLog) (a : OpenLog) (todo : List OpenLog) :
    Clean (fetchTurn u s done a todo) ↔ s.overran = false ∧
      (overruns a.bytes a.current_read_offset_ = false ∧
        ((fetch_next_log_record a.bytes a.current_read_offset_).1 = [] ∨
          a.archive.is_last_log_hash_matched = true ∨
          Usable u.parse (fetch_next_log_record a.bytes a.current_read_offset_).1)) := by
  set text := (fetch_next_log_record a.bytes a.current_read_offset_).1 with htext
  have hflag : (s.overran || overruns a.bytes a.current_read_offset_) = false ↔
      s.overran = false ∧ overruns a.bytes a.current_read_offset_ = false := Bool.or_eq_false_iff
  rw [← and_assoc, ← hflag]
  simp only [fetchTurn, ← htext]
  by_cases hempty : text = []
  · simp [hempty]
  have hne : ¬ text.isEmpty = true := by simpa using hempty
  rw [if_neg hne]
  by_cases hmatched : a.archive.is_last_log_hash_matched = true
  · rw [if_pos hmatched, clean_inr]
    simp [Ending.Fine, hmatched]
  rw [if_neg hmatched]
  simp only [hempty, hmatched, false_or]
  cases hparse : u.parse text with
  | none => simp [Ending.Fine, Usable, hparse]
  | some json_data =>
    simp only [Option.bind_some]
    cases hdoc : readDocument json_data with
    | none => simp [Ending.Fine, Usable, hparse, hdoc]
    | some document =>
      simp only
      cases hset : deserialize_log_set document with
      | none => simp [Ending.Fine, Usable, hparse, hdoc, deserialize_log_set_eq_none.mp hset]
      | some log_set =>
        have hrecords : document.log_set ≠ [] := by
          intro hnil
          rw [deserialize_log_set_eq_none.mpr hnil] at hset
          cases hset
        simp [Usable, hparse, hdoc, hrecords]

/-- What a turn that is not the last one can do. -/
inductive Turn (u : Setup) : Recovering → Recovering → Prop
  | verify {e m o done} : Turn u ⟨e, m, o, .reading done []⟩ ⟨e, m, o, .verifying [] done []⟩
  | skip {e m o done a todo} : Turn u ⟨e, m, o, .reading done (a :: todo)⟩ ⟨e, m, o, .reading (done ++ [a]) todo⟩
  | allRead {e m o done a todo} (offset : Nat) : Turn u ⟨e, m, o, .reading done (a :: todo)⟩
      ⟨e, m, o || overruns a.bytes a.current_read_offset_,
        .reading (done ++ [⟨a.bytes, offset, { a.archive with is_all_data_read_ := true }⟩]) todo⟩
  | fetch {e m o done a todo json_data log_set} : a.current_read_offset_ < a.bytes.length →
      (fetch_next_log_record a.bytes a.current_read_offset_).1 ≠ [] →
      deserialize_log_set json_data = some log_set → Turn u ⟨e, m, o, .reading done (a :: todo)⟩
      ⟨e, m, o || overruns a.bytes a.current_read_offset_,
        .reading done (⟨a.bytes, (fetch_next_log_record a.bytes a.current_read_offset_).2,
        { a.archive with buffered_log_records_ := a.archive.buffered_log_records_ ++ [log_set] }⟩ :: todo)⟩
  | sort {e m o done records records'} : Turn u ⟨e, m, o, .verifying done [] records⟩ ⟨e, m, o, .replaying done records'⟩
  | verified {e m o done a todo records p} :
      verify_epoch_level_integrity u.hash (BitVec.ofNat 32 e) a.archive records = .ok p →
      Turn u ⟨e, m, o, .verifying done (a :: todo) records⟩
        ⟨e, m, o, .verifying (done ++ [⟨a.bytes, a.current_read_offset_, p.1⟩]) todo p.2⟩
  | replayed {e m m' o archives r records} :
      Turn u ⟨e, m, o, .replaying archives (r :: records)⟩ ⟨e, m', o, .replaying archives records⟩
  | epoch {e m o archives} : e + 1 ≤ u.durable_epoch_ →
      Turn u ⟨e, m, o, .replaying archives []⟩ ⟨e + 1, m, o, .reading [] archives⟩
  | last {e m o archives} : Turn u ⟨e, m, o, .replaying archives []⟩ ⟨e, m, o, .ending archives⟩

theorem turn_of_fetchTurn {e : Nat} {m : Store String} {o : Bool} {phase : Phase} {done : List OpenLog}
    {a : OpenLog} {todo : List OpenLog} (hmore : a.current_read_offset_ < a.bytes.length) {s' : Recovering}
    (h : fetchTurn u ⟨e, m, o, phase⟩ done a todo = .inl s') : Turn u ⟨e, m, o, .reading done (a :: todo)⟩ s' := by
  simp only [fetchTurn] at h
  split at h
  · obtain rfl := Sum.inl.inj h
    exact .allRead _
  rename_i htext
  split at h
  · cases h
  split at h
  · cases h
  split at h
  · cases h
  rename_i log_set hset
  obtain rfl := Sum.inl.inj h
  exact .fetch hmore (by simpa using htext) hset

theorem turn_of_step {s' : Recovering} (h : step u s = .inl s') : Turn u s s' := by
  obtain ⟨e, m, o, phase⟩ := s
  cases phase with
  | reading done todo =>
    cases todo with
    | nil =>
      obtain rfl := Sum.inl.inj h
      exact .verify
    | cons a todo =>
      simp only [step] at h
      split at h
      · cases h
      split at h
      · obtain rfl := Sum.inl.inj h
        exact .skip
      rename_i hskips
      refine turn_of_fetchTurn ?_ h
      simp only [OpenLog.skips, Bool.or_eq_true, decide_eq_true_eq, not_or, not_le] at hskips
      exact hskips.1.2
  | verifying done todo records =>
    cases todo with
    | nil =>
      obtain rfl := Sum.inl.inj h
      exact .sort
    | cons a todo =>
      simp only [step] at h
      split at h
      · cases h
      simp only [verifyTurn] at h
      split at h
      · cases h
      rename_i archive records' hok
      obtain rfl := Sum.inl.inj h
      exact .verified hok
  | replaying archives records =>
    cases records with
    | nil =>
      simp only [step] at h
      split at h
      · rename_i hle
        obtain rfl := Sum.inl.inj h
        exact .epoch hle
      · obtain rfl := Sum.inl.inj h
        exact .last
    | cons r records =>
      simp only [step, replayTurn] at h
      split at h
      · obtain rfl := Sum.inl.inj h
        exact .replayed
      · cases h
      · cases h
  | ending archives =>
    simp only [step] at h
    split at h <;> cases h

theorem filled_deserialize {a : RecoveryLogArchive String String String} (h : Filled a)
    {json_data : JsonLog String String String} {log_set : LogSet}
    (hset : deserialize_log_set json_data = some log_set) :
    Filled { a with buffered_log_records_ := a.buffered_log_records_ ++ [log_set] } := by
  intro set hmem
  rcases List.mem_append.mp hmem with hmem | hmem
  · exact h set hmem
  · rw [List.mem_singleton.mp hmem]
    rw [deserialize_log_set] at hset
    split at hset
    · cases hset
    · rename_i r hr
      rw [← Option.some.inj hset]
      intro hnil
      rw [show json_data.log_set = [] from hnil] at hr
      cases hr

theorem filled_verify {e : BitVec 32} {a : RecoveryLogArchive String String String} {records : List Record}
    {p : RecoveryLogArchive String String String × List Record} (h : Filled a)
    (hok : verify_epoch_level_integrity u.hash e a records = .ok p) : Filled p.1 := by
  obtain ⟨harch, -, -⟩ := verifyLoop_ok hok
  intro set hset
  rw [harch] at hset
  exact h set (List.mem_of_mem_filter hset)

theorem allDataRead_foldl_accept (h : Hash String String String) (sets : List LogSet)
    (a : RecoveryLogArchive String String String) :
    (sets.foldl (RecoveryLogArchive.accept h) a).is_all_data_read_ = a.is_all_data_read_ := by
  induction sets generalizing a with
  | nil => rfl
  | cons set sets ih => rw [List.foldl_cons, ih, RecoveryLogArchive.accept]

/-- What is left of the file can be read, and no set without records is buffered. -/
structure Sound (u : Setup) (a : OpenLog) : Prop where
  filled : Filled a.archive
  framed : a.archive.is_all_data_read_ = true ∨ Framed u.parse (a.bytes.drop a.current_read_offset_)

/-- The log file at hand may be replaced by another one that is sound. -/
theorem sound_replace {done todo : List OpenLog} {a a' : OpenLog} (ha' : Sound u a')
    (h : ∀ b ∈ done ++ a :: todo, Sound u b) : ∀ b ∈ done ++ a' :: todo, Sound u b := by
  intro b hb
  rcases List.mem_append.mp hb with hb | hb
  · exact h b (List.mem_append_left _ hb)
  rcases List.mem_cons.mp hb with rfl | hb
  · exact ha'
  · exact h b (List.mem_append_right _ (List.mem_cons_of_mem _ hb))

/-- Step lemma: a turn leaves the log files sound. -/
theorem Turn.sound {s' : Recovering} (h : Turn u s s') (hs : ∀ a ∈ s.phase.archives, Sound u a) :
    ∀ a ∈ s'.phase.archives, Sound u a := by
  cases h with
  | verify => simpa [Phase.archives] using hs
  | skip => simpa [Phase.archives] using hs
  | @allRead e m o done a todo offset =>
    have ha : Sound u a := hs a (by simp [Phase.archives])
    rw [Phase.archives, List.append_assoc]
    exact sound_replace ⟨ha.filled, Or.inl rfl⟩ hs
  | @fetch e m o done a todo json_data log_set hmore hne hset =>
    have ha : Sound u a := hs a (by simp [Phase.archives])
    exact sound_replace ⟨filled_deserialize ha.filled hset, ha.framed.imp_right fun h => (h.next hmore).2 hne⟩ hs
  | sort => simpa [Phase.archives] using hs
  | @verified e m o done a todo records p hok =>
    have ha : Sound u a := hs a (by simp [Phase.archives])
    have hread : p.1.is_all_data_read_ = a.archive.is_all_data_read_ := by
      rw [(verifyLoop_ok hok).1]
      exact allDataRead_foldl_accept ..
    rw [Phase.archives, List.append_assoc]
    exact sound_replace ⟨filled_verify ha.filled hok, by rw [hread]; exact ha.framed⟩ hs
  | replayed => exact hs
  | epoch => exact hs
  | last => exact hs

theorem Turn.overran {s' : Recovering} (h : Turn u s s') (ho : s.overran = true) : s'.overran = true := by
  cases h <;> simp_all

end

end Cassa.SiloR.AnyLogFile
