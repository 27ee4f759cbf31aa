import Cassa.Common.Bytes
import Cassa.SiloR.RestartChain

/-!
# The bytes of a log file

`LogBuffer::write` puts the length of each document, as the eight bytes of a `size_t`,
in front of its JSON text; `fetch_next_log_record` takes the file apart again. A file
that one logger has written from the start comes back as the sets that went into it, and
both integrity checks pass in every epoch.
-/

namespace Cassa.SiloR

open Cassa.SiloCC

variable {K β D : Type}

/-- The library's `dump` and `parse`; an empty string is no JSON text. -/
structure Json (K β D : Type) where
  dump : JsonLog K β D → List UInt8
  parse : List UInt8 → Option (JsonLog K β D)
  parse_nil : parse [] = none

/-- What a logger writes to: its log file, its slot in `pepoch.seal`, and the hash that it
threads through its buffers. -/
structure LogWriter (D : Type) where
  log_file : List UInt8
  tail_log_hash : Option D
  prev_epoch_hash_ : D

/-- On an empty file. -/
def LogWriter.new (h : Hash K β D) : LogWriter D := ⟨[], none, h.passphrase⟩

/-- The length of the text, then the text. -/
def Json.frame (json : Json K β D) (doc : JsonLog K β D) : List UInt8 :=
  littleEndian 8 (json.dump doc).length ++ json.dump doc

/-- `LogBuffer::write`, with the assignment to `prev_epoch_hash_` in `Logger::logging`. -/
def LogWriter.write (json : Json K β D) (h : Hash K β D) (w : LogWriter D)
    (log_set_ : List (LogRecord K β)) : LogWriter D :=
  if log_set_.isEmpty then { w with prev_epoch_hash_ := h.emptyString }
  else
    let current_epoch_hash := currentEpochHash h log_set_
    { log_file := w.log_file ++ json.frame (create_json_log h w.prev_epoch_hash_ log_set_)
      tail_log_hash := some current_epoch_hash
      prev_epoch_hash_ := current_epoch_hash }

/-- The string is resized first, and keeps its zeros where the file is too short. -/
def read_file (file : List UInt8) (offset size : Nat) : List UInt8 :=
  ((file.drop offset).take size).rightpad size 0

/-- The text of the next document, and `current_read_offset_` after it. -/
def fetch_next_log_record (log_file : List UInt8) (current_read_offset_ : Nat) : List UInt8 × Nat :=
  let log_length := ofLittleEndian (read_file log_file current_read_offset_ 8)
  (read_file log_file (current_read_offset_ + 8) log_length, current_read_offset_ + 8 + log_length)

/-- All the texts from an offset on. -/
def fetchAll (log_file : List UInt8) (current_read_offset_ : Nat) : List (List UInt8) :=
  if log_file.length ≤ current_read_offset_ then []
  else
    let next := fetch_next_log_record log_file current_read_offset_
    next.1 :: fetchAll log_file next.2
termination_by log_file.length - current_read_offset_
decreasing_by
  simp only [fetch_next_log_record]
  omega

/-- An archive in the middle of its file. The bytes from `current_read_offset_` on stand for
the frames that `archive` has not read. -/
structure FileArchive (K β D : Type) where
  current_read_offset_ : Nat
  archive : RecoveryLogArchive K β D

/-- The inner loop over one log file. -/
def readFile (json : Json K β D) (log_file : List UInt8) (current_epoch : Nat)
    (x : FileArchive K β D) : Except Stop (FileArchive K β D) :=
  if x.archive.is_all_data_read_ || decide (log_file.length ≤ x.current_read_offset_) then .ok x
  else if frontIsLater current_epoch x.archive.buffered_log_records_ then .ok x
  else
    let next := fetch_next_log_record log_file x.current_read_offset_
    if next.1.isEmpty then .ok ⟨next.2, { x.archive with is_all_data_read_ := true }⟩
    else if x.archive.is_last_log_hash_matched then .error .minusOne
    else match (json.parse next.1).bind deserialize_log_set with
      | none => .error .fault
      | some set =>
        readFile json log_file current_epoch ⟨next.2,
          { x.archive with buffered_log_records_ := x.archive.buffered_log_records_ ++ [set] }⟩
termination_by log_file.length - x.current_read_offset_
decreasing_by
  simp only [fetch_next_log_record]
  simp only [Bool.or_eq_true, decide_eq_true_eq, not_or, not_le] at *
  omega

/-- The passes over one log file, from epoch `c` on. -/
def fileEpochs [DecidableEq D] (json : Json K β D) (h : Hash K β D) (log_file : List UInt8) :
    Nat → Nat → FileArchive K β D → Except Stop (FileArchive K β D)
  | _, 0, x => .ok x
  | c, n + 1, x => do
    let x ← readFile json log_file c x
    let (a, _) ← verify_epoch_level_integrity h (BitVec.ofNat 32 c) x.archive []
    fileEpochs json h log_file (c + 1) n ⟨x.current_read_offset_, a⟩

/-- What recovery makes of the text of a document. -/
def Json.read (json : Json K β D) (log_record_string : List UInt8) : LogFrame K β D :=
  if log_record_string.isEmpty then .empty
  else match json.parse log_record_string with
    | none => .malformed
    | some doc => .log doc

/-- The archive over the frames that are still to be fetched. -/
def FileArchive.frames (json : Json K β D) (log_file : List UInt8) (x : FileArchive K β D) :
    RecoveryLogArchive K β D :=
  { x.archive with unread := (fetchAll log_file x.current_read_offset_).map json.read }

theorem fetchAll_end {log_file : List UInt8} {offset : Nat} (hend : log_file.length ≤ offset) :
    fetchAll log_file offset = [] := by
  rw [fetchAll, if_pos hend]

theorem fetchAll_next {log_file : List UInt8} {offset : Nat} (hmore : ¬ log_file.length ≤ offset) :
    fetchAll log_file offset = (fetch_next_log_record log_file offset).1 ::
      fetchAll log_file (fetch_next_log_record log_file offset).2 := by
  rw [fetchAll, if_neg hmore]

section
variable (json : Json K β D) {log_file : List UInt8}

theorem FileArchive.unread_next {x : FileArchive K β D}
    (hmore : ¬ log_file.length ≤ x.current_read_offset_) (a : RecoveryLogArchive K β D) :
    let next := fetch_next_log_record log_file x.current_read_offset_
    (x.frames json log_file).unread =
      json.read next.1 :: (FileArchive.frames json log_file ⟨next.2, a⟩).unread := by
  simp [FileArchive.frames, fetchAll_next hmore]

/-- Fetching from the bytes is reading ahead over the frames. -/
theorem readFile_frames (c : Nat) (x : FileArchive K β D) :
    (readFile json log_file c x).map (FileArchive.frames json log_file) =
      readAhead c (x.frames json log_file).unread (x.frames json log_file) := by
  fun_induction readFile json log_file c x with
  | case1 x hstop =>
    by_cases hend : log_file.length ≤ x.current_read_offset_
    · have hnil : (x.frames json log_file).unread = [] := by
        simp [FileArchive.frames, fetchAll_end hend]
      rw [hnil, readAhead, ← hnil]
      rfl
    · have hall : x.archive.is_all_data_read_ = true := by simpa [hend] using hstop
      have hun := FileArchive.unread_next json hend x.archive
      rw [hun, readAhead_stop (by simp [FileArchive.frames, hall]), ← hun]
      rfl
  | case2 x hmore hfront =>
    have hend : ¬ log_file.length ≤ x.current_read_offset_ := by simp_all
    have hun := FileArchive.unread_next json hend x.archive
    rw [hun, readAhead_stop (by simp [FileArchive.frames, hfront]), ← hun]
    rfl
  | case3 x hmore hfront next hempty =>
    have hend : ¬ log_file.length ≤ x.current_read_offset_ := by simp_all
    have hopen : x.archive.is_all_data_read_ = false := by simp_all
    rw [FileArchive.unread_next json hend { x.archive with is_all_data_read_ := true }]
    simp [readAhead, FileArchive.frames, Json.read, hopen, hfront, hempty, next, Except.map]
  | case4 x hmore hfront next hempty hmatched =>
    have hend : ¬ log_file.length ≤ x.current_read_offset_ := by simp_all
    have hopen : x.archive.is_all_data_read_ = false := by simp_all
    rw [FileArchive.unread_next json hend x.archive]
    cases hparse : json.parse next.1 <;>
      simp [readAhead, FileArchive.frames, Json.read, hopen, hfront, hempty, next, Except.map, hparse, hmatched]
  | case5 x hmore hfront next hempty hmatched hset =>
    have hend : ¬ log_file.length ≤ x.current_read_offset_ := by simp_all
    have hopen : x.archive.is_all_data_read_ = false := by simp_all
    rw [FileArchive.unread_next json hend x.archive]
    cases hparse : json.parse next.1 with
    | none =>
      simp [readAhead, FileArchive.frames, Json.read, hopen, hfront, hempty, hmatched, next, hparse,
        Except.map]
    | some doc =>
      have hdoc : deserialize_log_set doc = none := by simpa [hparse] using hset
      simp [readAhead, FileArchive.frames, Json.read, hopen, hfront, hempty, hmatched, next, hparse,
        hdoc, Except.map]
  | case6 x hmore hfront next hempty hmatched set hset ih =>
    have hend : ¬ log_file.length ≤ x.current_read_offset_ := by simp_all
    have hopen : x.archive.is_all_data_read_ = false := by simp_all
    obtain ⟨doc, hparse, hdoc⟩ := Option.bind_eq_some_iff.mp hset
    rw [ih, FileArchive.unread_next json hend
      { x.archive with buffered_log_records_ := x.archive.buffered_log_records_ ++ [set] }]
    rw [FileArchive.frames, readAhead_unread, FileArchive.frames, readAhead_unread]
    simp [readAhead, Json.read, hopen, hfront, hempty, hmatched, next, hparse, hdoc]

variable [DecidableEq D] {h : Hash K β D}

/-- The verification leaves the file alone. -/
theorem verifyLoop_unread (e : BitVec 32) (fs : List (LogFrame K β D))
    (skipped todo : List (RecoveryLogSet K β D)) (a : RecoveryLogArchive K β D)
    (rs : List (RecoveryLogRecord K β D)) :
    verifyLoop h e skipped todo { a with unread := fs } rs =
      (verifyLoop h e skipped todo a rs).map fun p => ({ p.1 with unread := fs }, p.2) := by
  induction todo generalizing skipped a rs with
  | nil => rfl
  | cons set todo ih =>
    unfold verifyLoop
    split
    · split
      · rfl
      split
      · rfl
      exact ih skipped (a.accept h set) _
    · exact ih _ a rs

theorem fileEpochs_frames (log_file : List UInt8) (c n : Nat) (x : FileArchive K β D) :
    (fileEpochs json h log_file c n x).map (FileArchive.frames json log_file) =
      archiveEpochs h c n (x.frames json log_file) := by
  induction n generalizing c x with
  | zero => rfl
  | succ n ih =>
    rw [fileEpochs, archiveEpochs, ← readFile_frames]
    cases readFile json log_file c x with
    | error err => rfl
    | ok y =>
      have hverify : verify_epoch_level_integrity h (BitVec.ofNat 32 c) (y.frames json log_file) [] =
          (verify_epoch_level_integrity h (BitVec.ofNat 32 c) y.archive []).map fun p =>
            ({ p.1 with unread := (y.frames json log_file).unread }, p.2) :=
        verifyLoop_unread _ _ _ _ _ _
      simp only [bind, Except.bind, Except.map, hverify]
      cases verify_epoch_level_integrity h (BitVec.ofNat 32 c) y.archive [] with
      | error err => rfl
      | ok p => exact ih (c + 1) ⟨y.current_read_offset_, p.1⟩

end

theorem read_file_append (pre bytes post : List UInt8) :
    read_file (pre ++ (bytes ++ post)) pre.length bytes.length = bytes := by
  unfold read_file
  rw [List.drop_left, List.take_left, List.rightpad, Nat.sub_self, List.replicate_zero,
    List.append_nil]

section
variable {json : Json K β D}

theorem fetch_next_frame (pre post : List UInt8) {doc : JsonLog K β D}
    (hsize : (json.dump doc).length < 2 ^ 64) :
    fetch_next_log_record (pre ++ (json.frame doc ++ post)) pre.length =
      (json.dump doc, (pre ++ json.frame doc).length) := by
  have hlen : (pre ++ littleEndian 8 (json.dump doc).length).length = pre.length + 8 := by
    rw [List.length_append, length_littleEndian]
  have hlength : read_file (pre ++ (json.frame doc ++ post)) pre.length 8 =
      littleEndian 8 (json.dump doc).length := by
    have hread := read_file_append pre (littleEndian 8 (json.dump doc).length) (json.dump doc ++ post)
    rw [length_littleEndian, ← List.append_assoc (littleEndian _ _)] at hread
    exact hread
  have htext : read_file (pre ++ (json.frame doc ++ post)) (pre.length + 8) (json.dump doc).length =
      json.dump doc := by
    have hread := read_file_append (pre ++ littleEndian 8 (json.dump doc).length) (json.dump doc) post
    rw [hlen, List.append_assoc, ← List.append_assoc (littleEndian _ _)] at hread
    exact hread
  have hoffset : (pre ++ json.frame doc).length = pre.length + 8 + (json.dump doc).length := by
    rw [Json.frame, ← List.append_assoc, List.length_append, hlen]
  unfold fetch_next_log_record
  dsimp only
  rw [hlength, ofLittleEndian_littleEndian (by simpa using hsize), htext, hoffset]

/-- The texts come back one by one. -/
theorem fetchAll_frames {docs : List (JsonLog K β D)}
    (hsize : ∀ doc ∈ docs, (json.dump doc).length < 2 ^ 64) (pre : List UInt8) :
    fetchAll (pre ++ docs.flatMap json.frame) pre.length = docs.map json.dump := by
  induction docs generalizing pre with
  | nil =>
    rw [List.flatMap_nil, List.append_nil, fetchAll_end (Nat.le_refl _)]
    rfl
  | cons doc docs ih =>
    have hmore : ¬ (pre ++ (doc :: docs).flatMap json.frame).length ≤ pre.length := by
      simp only [List.flatMap_cons, Json.frame, List.length_append, length_littleEndian]
      omega
    rw [fetchAll_next hmore, List.flatMap_cons, fetch_next_frame _ _ (hsize doc List.mem_cons_self)]
    have hrest := ih (fun d hd => hsize d (List.mem_cons_of_mem _ hd)) (pre ++ json.frame doc)
    rw [List.append_assoc] at hrest
    rw [hrest, List.map_cons]

theorem Json.read_dump {doc : JsonLog K β D} (hjson : json.parse (json.dump doc) = some doc) :
    json.read (json.dump doc) = .log doc := by
  have hne : json.dump doc ≠ [] := by
    intro hnil
    rw [hnil, json.parse_nil] at hjson
    cases hjson
  unfold Json.read
  rw [if_neg (by simpa using hne), hjson]

variable {h : Hash K β D}

/-- What a logger leaves behind. -/
theorem foldl_write (json : Json K β D) (h : Hash K β D) {batches : List (List (LogRecord K β))} (hne : ∀ rs ∈ batches, rs ≠ [])
    (w : LogWriter D) :
    (batches.foldl (LogWriter.write json h) w).log_file =
        w.log_file ++ (writeAll h w.prev_epoch_hash_ batches).flatMap json.frame ∧
      (batches.foldl (LogWriter.write json h) w).tail_log_hash =
        (tailHash h batches).or w.tail_log_hash ∧
      (batches.foldl (LogWriter.write json h) w).prev_epoch_hash_ =
        chainEnd h w.prev_epoch_hash_ (writeAll h w.prev_epoch_hash_ batches) := by
  induction batches generalizing w with
  | nil =>
    refine ⟨?_, rfl, rfl⟩
    rw [writeAll, List.flatMap_nil, List.append_nil]
    rfl
  | cons rs batches ih =>
    have hwrite : w.write json h rs =
        ⟨w.log_file ++ json.frame (create_json_log h w.prev_epoch_hash_ rs),
          some (currentEpochHash h rs), currentEpochHash h rs⟩ := by
      unfold LogWriter.write
      rw [if_neg (by simpa using hne rs List.mem_cons_self)]
    obtain ⟨hfile, htail, hprev⟩ :=
      ih (fun x hx => hne x (List.mem_cons_of_mem _ hx)) (w.write json h rs)
    rw [hwrite] at hfile htail hprev
    rw [List.foldl_cons, hwrite, writeAll, hfile, htail, hprev]
    refine ⟨?_, ?_, ?_⟩
    · rw [List.flatMap_cons, List.append_assoc]
    · cases batches with
      | nil => rfl
      | cons rs' batches =>
        rw [tailHash, tailHash, List.getLast?_cons_cons, List.getLast?_cons]
        rfl
    · rw [chainEnd_cons, ofSet_create_json_log]

end

/-- The set has the epoch and the records of the batch. -/
structure IsBatch (b : Nat × List (LogRecord K β)) (set : RecoveryLogSet K β D) : Prop where
  epoch : set.epoch_.toNat = b.1
  num : set.log_record_num_ = b.2.length
  records : set.log_sets_.map RecoveryLogRecord.fields = b.2.map LogRecord.fields

theorem forall₂_isBatch {h : Hash K β D} {batches : List (Nat × List (LogRecord K β))} (prev : D)
    (hbatch : ∀ b ∈ batches, b.2 ≠ [] ∧ ∀ r ∈ b.2, r.tid_.epoch.toNat = b.1) :
    List.Forall₂ IsBatch batches ((writeAll h prev (batches.map Prod.snd)).map setOf) := by
  induction batches generalizing prev with
  | nil => exact .nil
  | cons b batches ih =>
    obtain ⟨hne, hepoch⟩ := hbatch b List.mem_cons_self
    rw [List.map_cons, writeAll, List.map_cons]
    refine .cons ⟨(epoch_create_json_log prev hne hepoch).1, rfl, ?_⟩
      (ih _ fun x hx => hbatch x (List.mem_cons_of_mem _ hx))
    exact fields_create_json_log h prev b.2

section
variable [DecidableEq D] {json : Json K β D} {h : Hash K β D}

theorem Passes.level {prev : D} {sets : List (RecoveryLogSet K β D)} (hsets : Passes h prev sets)
    {set : RecoveryLogSet K β D} (hset : set ∈ sets) :
    verify_log_level_integrity h set.log_sets_ = true := by
  induction sets generalizing prev with
  | nil => cases hset
  | cons x sets ih =>
    rcases List.mem_cons.mp hset with rfl | hset
    · exact hsets.2.1
    · exact ih hsets.2.2 hset

/-- Batches of one epoch each, in the order of their epochs, that one logger has written to
an empty file. The file comes back as the same sets, each of them passes, no epoch up to the
durable one fails, and at the end the archive has the hash that was written last. -/
theorem written_log_verifies {batches : List (Nat × List (LogRecord K β))} (hne : batches ≠ [])
    (hbatch : ∀ b ∈ batches, b.2 ≠ [] ∧ ∀ r ∈ b.2, r.tid_.epoch.toNat = b.1)
    (hord : batches.Pairwise fun b b' => b.1 ≤ b'.1) {durable : Nat}
    (hdur : ∀ b ∈ batches, b.1 ≤ durable)
    (hjson : ∀ doc ∈ writeAll h h.passphrase (batches.map Prod.snd),
      json.parse (json.dump doc) = some doc ∧ (json.dump doc).length < 2 ^ 64) :
    let w := (batches.map Prod.snd).foldl (LogWriter.write json h) (.new h)
    ∃ sets x,
      (fetchAll w.log_file 0).map (fun s => (json.parse s).bind deserialize_log_set) =
        sets.map some ∧
      List.Forall₂ IsBatch batches sets ∧
      (∀ set ∈ sets, verify_log_level_integrity h set.log_sets_ = true) ∧
      fileEpochs json h w.log_file 0 (durable + 1) ⟨0, .new h w.tail_log_hash []⟩ = .ok x ∧
      x.archive.accepted = sets ∧
      w.tail_log_hash = some x.archive.previous_epoch_hash_ ∧
      x.archive.previous_epoch_hash_ = w.prev_epoch_hash_ ∧
      x.archive.is_last_log_hash_matched = true := by
  intro w
  have hne' : batches.map Prod.snd ≠ [] := by simpa using hne
  have hrecords : ∀ rs ∈ batches.map Prod.snd, rs ≠ [] := by
    intro rs hrs
    obtain ⟨b, hb, rfl⟩ := List.mem_map.mp hrs
    exact (hbatch b hb).1
  obtain ⟨hfile, htail, hprev⟩ := foldl_write json h hrecords (.new h)
  have hlog := orderedLog_writeAll (h := h) hbatch hord
  have hdocs : writeAll h h.passphrase (batches.map Prod.snd) ≠ [] := writeAll_ne_nil hne'
  have hdur' := durable_writeAll (h := h) hbatch hdur
  have hsame := forall₂_isBatch (h := h) h.passphrase hbatch
  have hend := tailHash_eq (h := h) hne' h.passphrase
  change w.log_file = [] ++ (writeAll h h.passphrase _).flatMap json.frame at hfile
  change w.tail_log_hash = (tailHash h _).or none at htail
  change w.prev_epoch_hash_ = chainEnd h h.passphrase (writeAll h h.passphrase _) at hprev
  rw [Option.or_none, hend] at htail
  generalize writeAll h h.passphrase (batches.map Prod.snd) = docs at *
  have hfetch : fetchAll w.log_file 0 = docs.map json.dump := by
    rw [hfile]
    exact fetchAll_frames (fun doc hdoc => (hjson doc hdoc).2) []
  obtain ⟨a, hok, hdrained, hmatched⟩ := hlog.drained hdocs hdur'
  have hframes : FileArchive.frames json w.log_file ⟨0, .new h w.tail_log_hash []⟩ =
      .new h (some (chainEnd h h.passphrase docs)) (docs.map .log) := by
    have hread : docs.map (json.read ∘ json.dump) = docs.map .log :=
      List.map_congr_left fun doc hdoc => Json.read_dump (hjson doc hdoc).1
    unfold FileArchive.frames
    rw [hfetch, List.map_map, hread, htail]
    rfl
  have hepochs := fileEpochs_frames (h := h) json w.log_file 0 (durable + 1)
    ⟨0, .new h w.tail_log_hash []⟩
  rw [hframes, hok] at hepochs
  cases hx : fileEpochs json h w.log_file 0 (durable + 1) ⟨0, .new h w.tail_log_hash []⟩ with
  | error err =>
    rw [hx] at hepochs
    cases hepochs
  | ok x =>
    rw [hx] at hepochs
    obtain rfl : x.frames json w.log_file = a := Except.ok.inj hepochs
    refine ⟨docs.map setOf, x, ?_, hsame, ?_, rfl, hdrained.accepted, ?_, ?_, hmatched⟩
    · rw [hfetch, List.map_map, List.map_map]
      refine List.map_congr_left fun doc hdoc => ?_
      rw [Function.comp_apply, (hjson doc hdoc).1, Option.bind_some,
        deserialize_eq_setOf (hlog.chained.log_set_ne hdoc)]
      rfl
    · intro set hset
      exact hlog.chained.passes.level hset
    · rw [htail]
      exact congrArg some hdrained.prev.symm
    · rw [hprev]
      exact hdrained.prev

end

def ascii (s : String) : List UInt8 := s.toList.map fun c => UInt8.ofNat c.toNat

/-- Strings that need no escapes. -/
def quoted (s : List UInt8) : List UInt8 := ascii "\"" ++ s ++ ascii "\""

/-- The members of an object come in the order of their names. -/
def dumpRecord (r : RecoveryLogRecord (List UInt8) (List UInt8) (List UInt8)) : List UInt8 :=
  ascii "\x7b\"key\":" ++ quoted r.key_ ++ ascii ",\"op_type\":" ++ quoted (ascii r.operation_type_) ++
    ascii ",\"prev_hash\":" ++ quoted r.prev_hash_ ++ ascii ",\"tid\":" ++
    ascii (toString r.tid_.obj_) ++ ascii ",\"val\":" ++ quoted r.value_ ++ ascii "\x7d"

def dumpLog (doc : JsonLog (List UInt8) (List UInt8) (List UInt8)) : List UInt8 :=
  ascii "\x7b\"log_header\":\x7b\"log_record_num\":" ++ ascii (toString doc.log_record_num) ++
    ascii ",\"prev_epoch_hash\":" ++ quoted doc.prev_epoch_hash ++ ascii "\x7d,\"log_set\":[" ++
    ((doc.log_set.map dumpRecord).intersperse (ascii ",")).flatten ++ ascii "]\x7d"

/-- The strings that the code hashes, as they are. -/
def plainHash : Hash (List UInt8) (List UInt8) (List UInt8) where
  record tid op key value := ascii (toString tid.obj_) ++ ascii op ++ key ++ value
  set := List.flatten
  passphrase := ascii "pass"
  emptyString := []

def pairBatch : List (LogRecord (List UInt8) (List UInt8)) :=
  [⟨⟨false, true, false, 0, 1⟩, .INSERT, ascii "a", ascii "x"⟩,
    ⟨⟨false, true, false, 0, 1⟩, .INSERT, ascii "b", ascii "y"⟩]

def singleBatch : List (LogRecord (List UInt8) (List UInt8)) :=
  [⟨⟨false, true, false, 0, 2⟩, .WRITE, ascii "a", ascii "z"⟩]

/-- The parser, on the two documents of the file. -/
def twoDocuments : Json (List UInt8) (List UInt8) (List UInt8) where
  dump := dumpLog
  parse s := (writeAll plainHash plainHash.passphrase [pairBatch, singleBatch]).find? fun doc =>
    dumpLog doc = s
  parse_nil := by decide

theorem twoDocuments_parse :
    ∀ doc ∈ writeAll plainHash plainHash.passphrase [pairBatch, singleBatch],
      twoDocuments.parse (twoDocuments.dump doc) = some doc ∧
        (twoDocuments.dump doc).length < 2 ^ 64 := by
  decide +kernel

theorem written_log_verifies_two :
    let w := [pairBatch, singleBatch].foldl (LogWriter.write twoDocuments plainHash) (.new plainHash)
    ∃ sets x,
      (fetchAll w.log_file 0).map (fun s => (twoDocuments.parse s).bind deserialize_log_set) =
        sets.map some ∧
      List.Forall₂ IsBatch [(1, pairBatch), (2, singleBatch)] sets ∧
      (∀ set ∈ sets, verify_log_level_integrity plainHash set.log_sets_ = true) ∧
      fileEpochs twoDocuments plainHash w.log_file 0 3 ⟨0, .new plainHash w.tail_log_hash []⟩ =
        .ok x ∧
      x.archive.accepted = sets ∧
      w.tail_log_hash = some x.archive.previous_epoch_hash_ ∧
      x.archive.previous_epoch_hash_ = w.prev_epoch_hash_ ∧
      x.archive.is_last_log_hash_matched = true := by
  have hbatch : ∀ b ∈ [(1, pairBatch), (2, singleBatch)],
      b.2 ≠ [] ∧ ∀ r ∈ b.2, r.tid_.epoch.toNat = b.1 := by decide
  have hdur : ∀ b ∈ [(1, pairBatch), (2, singleBatch)], b.1 ≤ 2 := by decide
  exact written_log_verifies (by simp) hbatch (by decide) hdur twoDocuments_parse

end Cassa.SiloR
