import Mathlib.Data.Nat.Digits.Defs
import Cassa.SiloCC.LogBuffer

/-!
# What is hashed of a log record

`calculate_hash` of the writer and `compute_hash_from_log_record` of the verifier hash the
same string: the decimal digits of the TID, the name of the operation, the key and the
value, one after the other. The digits end where the name begins, and no name is the start
of another one. Nothing says where the key ends.
-/

namespace Cassa.SiloR.HashPreimage

open Cassa.SiloCC

variable {D : Type}

abbrev Bytes := List UInt8

/-- The characters of a name. -/
def ascii (name : String) : Bytes := name.toList.map fun c => UInt8.ofNat c.toNat

/-- `std::to_string` -/
def to_string (n : Nat) : Bytes :=
  if n = 0 then [48] else (Nat.digits 10 n).reverse.map fun d => UInt8.ofNat (48 + d)

/-- `data` in `LogBuffer::calculate_hash`. -/
def calculateHashData (tid : TIDword) (op_type : String) (key value : Bytes) : Bytes :=
  to_string tid.obj_ ++ ascii op_type ++ key ++ value

/-- `data` in `compute_hash_from_log_record`. -/
def computeHashData (log : RecoveryLogRecord Bytes Bytes D) : Bytes :=
  to_string log.tid_.obj_ ++ ascii log.operation_type_ ++ log.key_ ++ log.value_

/-- What the writer feeds for a record. -/
def writerData (r : LogRecord Bytes Bytes) : Bytes :=
  calculateHashData r.tid_ (OpType_to_string r.op_type_) r.key_ r.value_

/-- The record as the verifier gets it, with some `prev_hash_`. -/
def recovered (r : LogRecord Bytes Bytes) (prev_hash : D) : RecoveryLogRecord Bytes Bytes D :=
  ⟨r.tid_, OpType_to_string r.op_type_, r.key_, r.value_, prev_hash⟩

/-- The operations of log records. -/
def Logged (op : OpType) : Prop := op = .INSERT ∨ op = .WRITE ∨ op = .DELETE

/-- The strings of two records tell them apart, on both sides, and both sides feed the same string. -/
structure Unambiguous (r r' : LogRecord Bytes Bytes) (prev_hash prev_hash' : D) : Prop where
  writer : writerData r = writerData r' → r = r'
  verifier : computeHashData (recovered r prev_hash) = computeHashData (recovered r' prev_hash') → r = r'
  mixed : writerData r = computeHashData (recovered r' prev_hash') → r = r'
  same : computeHashData (recovered r prev_hash) = writerData r

/-- The same TID, operation, and bytes of key and value, with another end of the key. -/
def Recut (r r' : LogRecord Bytes Bytes) : Prop :=
  r.tid_ = r'.tid_ ∧ r.op_type_ = r'.op_type_ ∧ r.key_.length ≠ r'.key_.length ∧
    r.key_ ++ r.value_ = r'.key_ ++ r'.value_

def isDigit (b : UInt8) : Bool := 48 ≤ b && b ≤ 57

theorem isDigit_digit {d : Nat} (h : d < 10) : isDigit (UInt8.ofNat (48 + d)) = true := by
  have hd : ∀ d < 10, isDigit (UInt8.ofNat (48 + d)) = true := by decide
  exact hd d h

theorem digit_inj {d : Nat} (h : d < 10) : (UInt8.ofNat (48 + d)).toNat - 48 = d := by
  have hd : ∀ d < 10, (UInt8.ofNat (48 + d)).toNat - 48 = d := by decide
  exact hd d h

theorem all_digits (n : Nat) : ∀ b ∈ to_string n, isDigit b = true := by
  intro b hb
  rw [to_string] at hb
  split at hb
  · obtain rfl := List.mem_singleton.mp hb
    rfl
  · obtain ⟨d, hd, rfl⟩ := List.mem_map.mp hb
    exact isDigit_digit (Nat.digits_lt_base (by decide) (List.mem_reverse.mp hd))

/-- The digits back from their characters. -/
theorem digits_of_chars (n : Nat) :
    ((to_string n).reverse.map fun b => b.toNat - 48) = if n = 0 then [0] else Nat.digits 10 n := by
  rw [to_string]
  split
  · rfl
  · rw [← List.map_reverse, List.reverse_reverse, List.map_map]
    conv_rhs => rw [← List.map_id (Nat.digits 10 n)]
    refine List.map_congr_left fun d hd => ?_
    exact digit_inj (Nat.digits_lt_base (by decide) hd)

theorem to_string_inj {n n' : Nat} (h : to_string n = to_string n') : n = n' := by
  have hd : (if n = 0 then [0] else Nat.digits 10 n) = if n' = 0 then [0] else Nat.digits 10 n' := by
    rw [← digits_of_chars, ← digits_of_chars, h]
  have hof : ∀ n : Nat, Nat.ofDigits 10 (if n = 0 then [0] else Nat.digits 10 n) = n := by
    intro n
    split
    · subst n
      rfl
    · exact Nat.ofDigits_digits 10 n
  rw [← hof n, hd, hof]

/-- The digits are told from what follows when that does not start with a digit. -/
theorem takeWhile_to_string (n : Nat) {b : UInt8} {rest : Bytes} (hb : isDigit b = false) :
    (to_string n ++ b :: rest).takeWhile isDigit = to_string n := by
  rw [List.takeWhile_append_of_pos (all_digits n), List.takeWhile_cons_of_neg (by simp [hb]),
    List.append_nil]

/-- No name of an operation starts with a digit. -/
theorem ascii_op {op : OpType} (h : Logged op) :
    ∃ b rest, ascii (OpType_to_string op) = b :: rest ∧ isDigit b = false := by
  obtain rfl | rfl | rfl := h
  · exact ⟨73, [78, 83, 69, 82, 84], by decide, by decide⟩
  · exact ⟨87, [82, 73, 84, 69], by decide, by decide⟩
  · exact ⟨68, [69, 76, 69, 84, 69], by decide, by decide⟩

/-- The first letter of the name tells the operations of log records apart. -/
theorem op_of_head {op op' : OpType} (h : Logged op) (h' : Logged op')
    (heq : (ascii (OpType_to_string op)).head? = (ascii (OpType_to_string op')).head?) : op = op' := by
  obtain rfl | rfl | rfl := h <;> obtain rfl | rfl | rfl := h' <;>
    first | rfl | exact absurd heq (by decide)

/-- TID and operation come back from the string, and key and value only joined. -/
theorem hashData_eq_iff {tid tid' : TIDword} {op op' : OpType} (hop : Logged op) (hop' : Logged op')
    (key value key' value' : Bytes) :
    calculateHashData tid (OpType_to_string op) key value =
        calculateHashData tid' (OpType_to_string op') key' value' ↔
      tid = tid' ∧ op = op' ∧ key ++ value = key' ++ value' := by
  obtain ⟨b, rest, hname, hb⟩ := ascii_op hop
  obtain ⟨b', rest', hname', hb'⟩ := ascii_op hop'
  constructor
  · intro h
    simp only [calculateHashData, hname, hname', List.append_assoc, List.cons_append] at h
    have htid : to_string tid.obj_ = to_string tid'.obj_ := by
      have := congrArg (List.takeWhile isDigit) h
      rwa [takeWhile_to_string _ hb, takeWhile_to_string _ hb'] at this
    have hrest := List.append_cancel_left (htid ▸ h)
    obtain ⟨rfl, hcat⟩ := List.cons.inj hrest
    obtain rfl := op_of_head hop hop' (by rw [hname, hname', List.head?_cons, List.head?_cons])
    obtain ⟨-, rfl⟩ := List.cons.inj (hname.symm.trans hname')
    exact ⟨TIDword.obj_injective (to_string_inj htid), rfl, List.append_cancel_left hcat⟩
  · rintro ⟨rfl, rfl, h⟩
    simp only [calculateHashData, List.append_assoc, h]

/-- Two cuts of the same bytes are the same when the first parts are as long. -/
theorem same_cut {r r' : LogRecord Bytes Bytes} (h : ¬ Recut r r') (htid : r.tid_ = r'.tid_)
    (hop : r.op_type_ = r'.op_type_) (hcat : r.key_ ++ r.value_ = r'.key_ ++ r'.value_) : r = r' := by
  have hlen : r.key_.length = r'.key_.length := by
    by_contra hne
    exact h ⟨htid, hop, hne, hcat⟩
  obtain ⟨hkey, hvalue⟩ := List.append_inj hcat hlen
  cases r
  cases r'
  simp_all

/-- Writer and verifier feed the same string. -/
theorem computeHashData_recovered (r : LogRecord Bytes Bytes) (prev_hash : D) :
    computeHashData (recovered r prev_hash) = writerData r := rfl

theorem unambiguous_iff (r r' : LogRecord Bytes Bytes) (prev_hash prev_hash' : D)
    (hop : Logged r.op_type_) (hop' : Logged r'.op_type_) :
    Unambiguous r r' prev_hash prev_hash' ↔ ¬ Recut r r' := by
  constructor
  · rintro hun ⟨htid, hopeq, hlen, hcat⟩
    have heq := hun.writer ((hashData_eq_iff hop hop' _ _ _ _).mpr ⟨htid, hopeq, hcat⟩)
    exact hlen (congrArg (fun r => r.key_.length) heq)
  · intro hcut
    have hinj : writerData r = writerData r' → r = r' := by
      intro h
      obtain ⟨htid, hopeq, hcat⟩ := (hashData_eq_iff hop hop' _ _ _ _).mp h
      exact same_cut hcut htid hopeq hcat
    exact ⟨hinj, hinj, hinj, computeHashData_recovered r prev_hash⟩

theorem unambiguous_insert_delete :
    Unambiguous ⟨TIDword.new, .INSERT, [97], [98, 99]⟩ ⟨TIDword.new, .DELETE, [97, 98], [99]⟩
      () () :=
  (unambiguous_iff _ _ _ _ (Or.inl rfl) (Or.inr (Or.inr rfl))).mpr (fun h => by cases h.2.1)

/-- The records `(a, bc)` and `(ab, c)` of one transaction are hashed alike. -/
theorem not_unambiguous :
    ¬ ∀ r r' : LogRecord Bytes Bytes, Logged r.op_type_ → Logged r'.op_type_ →
      Unambiguous r r' () () := by
  intro h
  have hun := h ⟨TIDword.new, .INSERT, [97], [98, 99]⟩ ⟨TIDword.new, .INSERT, [97, 98], [99]⟩ (Or.inl rfl) (Or.inl rfl)
  have heq := hun.writer rfl
  cases heq

end Cassa.SiloR.HashPreimage
