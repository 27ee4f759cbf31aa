import Mathlib
import Cassa.Lib.Refinement
import Cassa.Masstree.SortedMap
import Cassa.SiloCC.Serial

/-!
# Transactions over Masstree

The operations of `TxExecutor` that call the index, with Masstree itself as the index and a type of keys
of which each is a `Key`; the others are those of one worker over a map. On keys that Masstree keeps as a sorted map, every list of requests is
answered as over the map.
-/

namespace Cassa.SiloCC.OverMasstree

open Cassa.Masstree Cassa.Lib.Refinement Serial

variable {K β : Type} [LinearOrder K]

/-- The index, and everything else; the map in `tx` is not used. -/
structure State (K β : Type) [LinearOrder K] where
  masstree : Masstree ValuePtr
  tx : Serial.State K β

def State.new [Inhabited β] : State K β := ⟨.new, .new⟩

section
variable (toKey : K → Key)

def insert (s : State K β) (key : K) (value : β) : Option (SiloCC.Status × State K β) :=
  if (searchWriteSet s.tx.write_set_ key).isSome then some (.WARN_ALREADY_EXISTS, s)
  else match s.masstree.get_value (toKey key) with
    | none => none
    | some (some _) => some (.WARN_ALREADY_EXISTS, s)
    | some none =>
      let word := TIDword.new.init
      match s.masstree.insert_value (toKey key) s.tx.next with
      | none => none
      | some (.WARN_ALREADY_EXISTS, masstree) => some (.WARN_ALREADY_EXISTS, { s with masstree := masstree })
      | some (_, masstree) => some (.OK, ⟨masstree, { s.tx with
          mem := Function.update s.tx.mem s.tx.next ⟨word, value⟩
          next := s.tx.next + 1
          read_set_ := s.tx.read_set_ ++ [⟨key, s.tx.next, word, .READ⟩]
          write_set_ := s.tx.write_set_ ++ [⟨key, s.tx.next, value, .INSERT⟩] }⟩)

/-- The record of the read set, else the one of the tree. -/
def findValue (s : State K β) (key : K) : Option (Option ValuePtr) :=
  match searchReadSet s.tx.read_set_ key with
  | some readElement => some (some readElement.value_)
  | none => s.masstree.get_value (toKey key)

def tx_delete [Inhabited β] (s : State K β) (key : K) : Option (SiloCC.Status × State K β) :=
  match searchWriteSet s.tx.write_set_ key with
  | some writeElement => if writeElement.op_ = .INSERT then some (.WARN_NOT_FOUND, s) else some (.OK, s)
  | none => (findValue toKey s key).map fun
    | none => (.WARN_NOT_FOUND, s)
    | some v => (.OK, { s with tx := { s.tx with write_set_ := s.tx.write_set_ ++ [⟨key, v, default, .DELETE⟩] } })

def write (s : State K β) (key : K) (value : β) : Option (SiloCC.Status × State K β) :=
  if (searchWriteSet s.tx.write_set_ key).isSome then some (.OK, s)
  else (findValue toKey s key).map fun
    | none => (.WARN_NOT_FOUND, s)
    | some v => (.OK, { s with tx := { s.tx with write_set_ := s.tx.write_set_ ++ [⟨key, v, value, .WRITE⟩] } })

def read (s : State K β) (key : K) : Option (SiloCC.Status × State K β) :=
  if (searchReadSet s.tx.read_set_ key).isSome then some (.OK, s)
  else if (searchWriteSet s.tx.write_set_ key).isSome then some (.OK, s)
  else match s.masstree.get_value (toKey key) with
    | none => none
    | some none => some (.WARN_NOT_FOUND, s)
    | some (some found_value) =>
      match read_internal s.tx key found_value with
      | some (.OK, tx) => some (.OK, { s with tx := { tx with read_value := tx.body found_value } })
      | some (status, tx) => some (status, { s with tx := tx })
      | none => none

def removeInserted : List (WriteElement K β) → Masstree ValuePtr → Option (Masstree ValuePtr)
  | [], masstree => some masstree
  | we :: rest, masstree =>
    if we.op_ = .INSERT then (masstree.remove_value (toKey we.key_)).bind fun r => removeInserted rest r.2
    else removeInserted rest masstree

def abort (s : State K β) : Option (State K β) :=
  (removeInserted toKey s.tx.write_set_ s.masstree).map fun masstree =>
    ⟨masstree, { s.tx with read_set_ := [], write_set_ := [] }⟩

end

def scan (s : State ShortKey β) (l : ShortKey) (l_exclusive : Bool) (r : ShortKey) (r_exclusive : Bool) :
    Option (SiloCC.Status × State ShortKey β × List (ShortKey × β)) :=
  match s.masstree.scan ⟨l.toKey, l_exclusive, r.toKey, r_exclusive⟩ with
  | none => none
  | some (_, found, masstree) =>
    match found.mapM pairOf with
    | none => none
    | some scan_result =>
      match scanLoop s.tx [] scan_result with
      | some (.OK, tx, result) =>
        let added := tx.read_set_.drop s.tx.read_set_.length
        some (.OK, ⟨masstree, tx⟩, result ++ added.map fun itr => (itr.key_, tx.body itr.value_))
      | some (status, tx, result) => some (status, ⟨masstree, tx⟩, result)
      | none => none

/-- The loop body of `execute_transaction`. -/
def execute [Inhabited β] (s : State ShortKey β) : Procedure ShortKey β → Option (SiloCC.Status × State ShortKey β)
  | .INSERT k b => insert ShortKey.toKey s k b
  | .READ k =>
    match read ShortKey.toKey s k with
    | some (.OK, s') => some (.OK, { s' with tx := { s'.tx with
        read_key_value_pairs := s'.tx.read_key_value_pairs ++ [(k, s'.tx.read_value)] } })
    | r => r
  | .WRITE k b => write ShortKey.toKey s k b
  | .SCAN l lx r rx =>
    match scan s l lx r rx with
    | some (.OK, s', scan_result) => some (.OK, { s' with tx := { s'.tx with
        read_key_value_pairs := s'.tx.read_key_value_pairs ++ scan_result } })
    | some (status, s', _) => some (status, s')
    | none => none
  | .DELETE k => tx_delete ShortKey.toKey s k

def executeAll [Inhabited β] (s : State ShortKey β) :
    List (Procedure ShortKey β) → Option (SiloCC.Status × State ShortKey β × List (ErrorLine ShortKey))
  | [] => some (.OK, s, [])
  | p :: ps =>
    match execute s p with
    | none => none
    | some (.OK, s') => executeAll s' ps
    | some (status, s') => some (status, s', refusal p status)

/-- The result code, the state and the message. The list holds the epochs that the attempts find. -/
def execute_transaction [Inhabited β] (arrange : List ShortKey → List ShortKey) :
    List Nat → State ShortKey β → List (Procedure ShortKey β) → Option (Int × State ShortKey β × List (ErrorLine ShortKey))
  | [], _, _ => none
  | localEpoch :: epochs, s, pro_set_ =>
    match executeAll { s with tx := s.tx.begin } pro_set_ with
    | none => none
    | some (.OK, s', _) =>
      match validationPhase arrange s'.tx with
      | (tx, true) => (writePhase tx localEpoch).map fun tx => (0, ⟨s'.masstree, tx⟩, [])
      | (tx, false) =>
        match abort ShortKey.toKey ⟨s'.masstree, tx⟩ with
        | none => none
        | some s'' => execute_transaction arrange epochs s'' pro_set_
    | some (_, s', lines) => (abort ShortKey.toKey s').map fun s'' => (-2, s'', lines ++ [.aborted])

/-- A request, and the epochs that its attempts find. -/
structure Request (β : Type) where
  epochs : List Nat
  pro_set_ : List (Procedure ShortKey β)

/-- What the client is sent: the code, the lines, and what READ and SCAN have found. -/
structure Answer (β : Type) where
  code : Int
  lines : List (ErrorLine ShortKey)
  read_key_value_pairs : List (ShortKey × β)

def answer [Inhabited β] (arrange : List ShortKey → List ShortKey) (s : State ShortKey β) (request : Request β) :
    Option (Answer β × State ShortKey β) :=
  (execute_transaction arrange request.epochs s request.pro_set_).map fun a =>
    (⟨a.1, a.2.2, a.2.1.tx.read_key_value_pairs⟩, a.2.1)

def answerOverMap [Inhabited β] (arrange : List ShortKey → List ShortKey) (s : Serial.State ShortKey β)
    (request : Request β) : Option (Answer β × Serial.State ShortKey β) :=
  (Serial.execute_transaction arrange request.epochs s request.pro_set_).map fun a =>
    (⟨a.1, a.2.2, a.2.1.read_key_value_pairs⟩, a.2.1)

/-- The body that a transaction finds under a key: none under a key whose record is absent. -/
def State.visible (s : State ShortKey β) (k : ShortKey) : Option (Option β) :=
  (s.masstree.get_value k.toKey).map fun
    | none => none
    | some v => if (s.tx.tidword v).absent then none else some (s.tx.body v)

/-- The state over a map. -/
def withTree (s : Serial.State ShortKey β) (map : Std.TreeMap ShortKey ValuePtr) : Serial.State ShortKey β :=
  { s with masstree := map }

section

variable (map : Std.TreeMap ShortKey ValuePtr)

@[simp] theorem withTree_read_set_ (s : Serial.State ShortKey β) : (withTree s map).read_set_ = s.read_set_ := rfl

@[simp] theorem withTree_write_set_ (s : Serial.State ShortKey β) : (withTree s map).write_set_ = s.write_set_ := rfl

@[simp] theorem withTree_tidword (s : Serial.State ShortKey β) (v : ValuePtr) :
    (withTree s map).tidword v = s.tidword v := rfl

@[simp] theorem withTree_body (s : Serial.State ShortKey β) (v : ValuePtr) : (withTree s map).body v = s.body v := rfl

@[simp] theorem withTree_setTid (s : Serial.State ShortKey β) (v : ValuePtr) (t : TIDword) :
    (withTree s map).setTid v t = withTree (s.setTid v t) map := rfl

theorem read_internal_withTree (s : Serial.State ShortKey β) (key : ShortKey) (v : ValuePtr) :
    read_internal (withTree s map) key v = (read_internal s key v).map fun r => (r.1, withTree r.2 map) := by
  by_cases hlock : (s.tidword v).lock = true
  · simp only [read_internal, withTree_tidword, hlock, if_true, Option.map_none]
  · by_cases habsent : (s.tidword v).absent = true
    · simp only [read_internal, withTree_tidword, hlock, habsent, if_true, Bool.false_eq_true, if_false, Option.map_some]
    · simp only [read_internal, withTree_tidword, hlock, habsent, Bool.false_eq_true, if_false, Option.map_some]
      rfl

theorem scanLoop_withTree (s : Serial.State ShortKey β) (result : List (ShortKey × β))
    (found : List (ShortKey × ValuePtr)) :
    scanLoop (withTree s map) result found =
      (scanLoop s result found).map fun r => (r.1, withTree r.2.1 map, r.2.2) := by
  induction found generalizing s result with
  | nil => rfl
  | cons e rest ih =>
    obtain ⟨k, v⟩ := e
    rw [scanLoop, scanLoop, read_internal_withTree]
    simp only [withTree_read_set_, withTree_write_set_, withTree_body]
    cases searchReadSet s.read_set_ k with
    | some readElement => exact ih s _
    | none =>
      cases searchWriteSet s.write_set_ k with
      | some writeElement => exact ih s _
      | none =>
        cases read_internal s k v with
        | none => rfl
        | some r =>
          by_cases hstatus : r.1 ≠ .OK ∧ r.1 ≠ .WARN_NOT_FOUND
          · simp only [Option.map_some, if_pos hstatus]
          · simp only [Option.map_some, if_neg hstatus]
            exact ih r.2 result

theorem unlockWriteSet_withTree (s : Serial.State ShortKey β) (ws : List (WriteElement ShortKey β)) :
    unlockWriteSet (withTree s map) ws = withTree (unlockWriteSet s ws) map := by
  unfold unlockWriteSet
  induction ws generalizing s with
  | nil => rfl
  | cons we ws ih =>
    rw [List.foldl_cons, List.foldl_cons]
    by_cases hop : we.op_ = .INSERT
    · rw [if_pos hop, if_pos hop]
      exact ih s
    · rw [if_neg hop, if_neg hop, withTree_tidword, withTree_setTid]
      exact ih _

theorem lockWriteSet_withTree (s : Serial.State ShortKey β) (before ws : List (WriteElement ShortKey β)) :
    lockWriteSet (withTree s map) before ws = withTree (lockWriteSet s before ws) map := by
  induction ws generalizing s before with
  | nil => rfl
  | cons we ws ih =>
    rw [lockWriteSet, lockWriteSet]
    by_cases hop : we.op_ = .INSERT
    · rw [if_pos hop, if_pos hop]
      exact ih s _
    · rw [if_neg hop, if_neg hop]
      by_cases hlock : (s.tidword we.value_).lock = true
      · simp only [withTree_tidword, hlock, if_true]
        exact unlockWriteSet_withTree map { s with status_ := .Aborted } before
      · simp only [withTree_tidword, hlock, Bool.false_eq_true, if_false]
        exact ih { s.setTid we.value_ { s.tidword we.value_ with lock := true } with
          max_wset_ := TIDword.max s.max_wset_ (s.tidword we.value_) } _

theorem validateReadSet_withTree (s : Serial.State ShortKey β) (rs : List (ReadElement ShortKey)) :
    validateReadSet (withTree s map) rs = ((withTree (validateReadSet s rs).1 map), (validateReadSet s rs).2) := by
  induction rs generalizing s with
  | nil => rfl
  | cons re rs ih =>
    rw [validateReadSet, validateReadSet]
    have hfails : validationFails (withTree s map) re (s.tidword re.value_) =
        validationFails s re (s.tidword re.value_) := rfl
    by_cases hfail : validationFails s re (s.tidword re.value_) = true
    · simp only [withTree_tidword, hfails, hfail, if_true]
      exact Prod.ext (unlockWriteSet_withTree map { s with status_ := .Aborted } s.write_set_) rfl
    · simp only [withTree_tidword, hfails, hfail, Bool.false_eq_true, if_false]
      exact ih { s with max_rset_ := TIDword.max s.max_rset_ (s.tidword re.value_) }

theorem validationPhase_withTree (arrange : List ShortKey → List ShortKey) (s : Serial.State ShortKey β) :
    validationPhase arrange (withTree s map) =
      (withTree (validationPhase arrange s).1 map, (validationPhase arrange s).2) := by
  rw [validationPhase, validationPhase]
  have hlocked := lockWriteSet_withTree map { s with write_set_ := sortWriteSet arrange s.write_set_ } []
    (sortWriteSet arrange s.write_set_)
  exact (congrArg (fun t => validateReadSet t t.read_set_) hlocked).trans (validateReadSet_withTree map _ _)

theorem writeLoop_withTree (s : Serial.State ShortKey β) (maxtid : TIDword) (ws : List (WriteElement ShortKey β)) :
    writeLoop (withTree s map) maxtid ws = (writeLoop s maxtid ws).map (withTree · map) := by
  induction ws generalizing s maxtid with
  | nil => rfl
  | cons we ws ih =>
    rw [writeLoop, writeLoop]
    cases we.op_ with
    | WRITE => exact ih ((s.setBody we.value_ we.new_value_body_).setTid we.value_ maxtid) maxtid
    | INSERT => exact ih (s.setTid we.value_ { maxtid with absent := false }) { maxtid with absent := false }
    | DELETE => exact ih (s.setTid we.value_ { maxtid with absent := true }) { maxtid with absent := true }
    | NONE | READ | SCAN | RMW => rfl

theorem writePhase_withTree (s : Serial.State ShortKey β) (localEpoch : Nat) :
    writePhase (withTree s map) localEpoch = (writePhase s localEpoch).map (withTree · map) :=
  writeLoop_withTree map { s with mrctid_ := commitTid s.max_rset_ s.max_wset_ s.mrctid_ localEpoch } _ s.write_set_

end

/-- The state over the map whose index is the tree. -/
structure Refines (s : State ShortKey β) (t : Serial.State ShortKey β) : Prop where
  index : Represents s.masstree t.masstree
  tx : t = withTree s.tx t.masstree

theorem Refines.of {masstree : Masstree ValuePtr} {map : Std.TreeMap ShortKey ValuePtr} (h : Represents masstree map)
    (tx : Serial.State ShortKey β) : Refines ⟨masstree, tx⟩ (withTree tx map) := ⟨h, rfl⟩

section

variable {s : State ShortKey β} {t : Serial.State ShortKey β}

theorem Refines.insert (h : Refines s t) (key : ShortKey) (value : β) :
    Alike Refines (insert ShortKey.toKey s key value) (some (Serial.insert t key value)) := by
  obtain ⟨index, tx⟩ := h
  generalize hmap : t.masstree = map at index tx
  subst tx
  unfold OverMasstree.insert Serial.insert
  simp only [withTree_write_set_]
  by_cases hset : (searchWriteSet s.tx.write_set_ key).isSome = true
  · simp only [hset, if_true]
    exact .ok (.of index s.tx)
  · simp only [hset, Bool.false_eq_true, if_false]
    rw [index.get_value]
    cases hget : map[key]? with
    | some v =>
      rw [show (withTree s.tx map).masstree[key]? = some v from hget]
      exact .ok (.of index s.tx)
    | none =>
      rw [show (withTree s.tx map).masstree[key]? = none from hget]
      obtain ⟨masstree, hins, index'⟩ := index.insert_value hget s.tx.next
      simp only [hins]
      exact .ok (.of index' _)

theorem Refines.findValue (h : Refines s t) (key : ShortKey) : findValue ShortKey.toKey s key = some (Serial.findValue t key) := by
  obtain ⟨index, tx⟩ := h
  generalize hmap : t.masstree = map at index tx
  subst tx
  unfold OverMasstree.findValue Serial.findValue
  rw [withTree_read_set_]
  cases searchReadSet s.tx.read_set_ key with
  | some readElement => rfl
  | none => exact index.get_value key

/-- An element that is added to the write set. -/
theorem Refines.push (h : Refines s t) (we : WriteElement ShortKey β) :
    Refines { s with tx := { s.tx with write_set_ := s.tx.write_set_ ++ [we] } }
      { t with write_set_ := t.write_set_ ++ [we] } := by
  obtain ⟨index, tx⟩ := h
  generalize hmap : t.masstree = map at index tx
  subst tx
  exact .of index _

/-- What the client is told. -/
theorem Refines.tell (h : Refines s t) (pairs : Serial.State ShortKey β → List (ShortKey × β))
    (hpairs : ∀ tx map, pairs (withTree tx map) = pairs tx) :
    Refines { s with tx := { s.tx with read_key_value_pairs := pairs s.tx } }
      { t with read_key_value_pairs := pairs t } := by
  obtain ⟨index, tx⟩ := h
  generalize hmap : t.masstree = map at index tx
  subst tx
  rw [hpairs]
  exact .of index _

theorem Refines.write_set_ (h : Refines s t) : t.write_set_ = s.tx.write_set_ := by
  rw [h.tx, withTree_write_set_]

theorem Refines.read_set_ (h : Refines s t) : t.read_set_ = s.tx.read_set_ := by
  rw [h.tx, withTree_read_set_]

theorem Refines.tx_delete [Inhabited β] (h : Refines s t) (key : ShortKey) :
    Alike Refines (tx_delete ShortKey.toKey s key) (some (Serial.tx_delete t key)) := by
  unfold OverMasstree.tx_delete Serial.tx_delete
  rw [h.write_set_, h.findValue]
  cases searchWriteSet s.tx.write_set_ key with
  | some writeElement =>
    by_cases hop : writeElement.op_ = .INSERT
    · simp only [hop, if_true]
      exact .ok h
    · simp only [hop, if_false]
      exact .ok h
  | none =>
    cases Serial.findValue t key with
    | none => exact .ok h
    | some v => exact .ok (h.write_set_ ▸ h.push _)

theorem Refines.write (h : Refines s t) (key : ShortKey) (value : β) :
    Alike Refines (write ShortKey.toKey s key value) (some (Serial.write t key value)) := by
  unfold OverMasstree.write Serial.write
  rw [h.write_set_, h.findValue]
  by_cases hset : (searchWriteSet s.tx.write_set_ key).isSome = true
  · simp only [hset, if_true]
    exact .ok h
  · simp only [hset, Bool.false_eq_true, if_false]
    cases Serial.findValue t key with
    | none => exact .ok h
    | some v => exact .ok (h.write_set_ ▸ h.push _)

theorem Refines.read (h : Refines s t) (key : ShortKey) : Alike Refines (read ShortKey.toKey s key) (Serial.read t key) := by
  unfold OverMasstree.read Serial.read
  rw [h.read_set_, h.write_set_]
  by_cases hread : (searchReadSet s.tx.read_set_ key).isSome = true
  · simp only [hread, if_true]
    exact .ok h
  simp only [hread, Bool.false_eq_true, if_false]
  by_cases hset : (searchWriteSet s.tx.write_set_ key).isSome = true
  · simp only [hset, if_true]
    exact .ok h
  simp only [hset, Bool.false_eq_true, if_false]
  have h' := h
  obtain ⟨index, tx⟩ := h
  generalize hmap : t.masstree = map at index tx
  subst tx
  rw [index.get_value]
  cases map[key]? with
  | none => exact .ok h'
  | some v =>
    simp only [read_internal_withTree]
    cases read_internal s.tx key v with
    | none => exact .none
    | some r =>
      obtain ⟨status, tx⟩ := r
      cases status <;> exact .ok (.of index _)

theorem Refines.scan (h : Refines s t) (l r : ShortKey) (l_exclusive r_exclusive : Bool) :
    Alike Refines ((scan s l l_exclusive r r_exclusive).map stateLast)
      ((Serial.scan t (inRange l l_exclusive r r_exclusive)).map stateLast) := by
  obtain ⟨index, tx⟩ := h
  generalize hmap : t.masstree = map at index tx
  subst tx
  obtain ⟨status, hscan⟩ := index.scan l r l_exclusive r_exclusive (inRange l l_exclusive r r_exclusive)
    fun k => ShortKey.inRange_iff l r k l_exclusive r_exclusive
  unfold OverMasstree.scan Serial.scan
  simp only [hscan, mapM_pairOf, scanLoop_withTree]
  have hfound : masstreeScan (withTree s.tx map).masstree (inRange l l_exclusive r r_exclusive) =
      map.toList.filter fun e => inRange l l_exclusive r r_exclusive e.1 := rfl
  rw [hfound]
  cases scanLoop s.tx [] (map.toList.filter fun e => inRange l l_exclusive r r_exclusive e.1) with
  | none => exact .none
  | some a =>
    obtain ⟨status, tx, result⟩ := a
    cases status <;> exact .ok (.of index _)

theorem removeInserted_represents {masstree : Masstree ValuePtr} {map : Std.TreeMap ShortKey ValuePtr}
    (h : Represents masstree map) (ws : List (WriteElement ShortKey β)) :
    ∃ masstree', removeInserted ShortKey.toKey ws masstree = some masstree' ∧ Represents masstree'
      (ws.foldl (fun tree we => if we.op_ = .INSERT then tree.erase we.key_ else tree) map) := by
  induction ws generalizing masstree map with
  | nil => exact ⟨masstree, rfl, h⟩
  | cons we ws ih =>
    rw [removeInserted, List.foldl_cons]
    by_cases hop : we.op_ = .INSERT
    · obtain ⟨masstree', hremove, h'⟩ := h.remove_value we.key_
      rw [if_pos hop, if_pos hop, hremove]
      exact ih h'
    · rw [if_neg hop, if_neg hop]
      exact ih h

theorem Refines.abort (h : Refines s t) : ∃ s', abort ShortKey.toKey s = some s' ∧ Refines s' (Serial.abort t) := by
  obtain ⟨index, tx⟩ := h
  generalize hmap : t.masstree = map at index tx
  subst tx
  obtain ⟨masstree, hremoved, index'⟩ := removeInserted_represents index s.tx.write_set_
  refine ⟨_, ?_, .of index' { s.tx with read_set_ := [], write_set_ := [] }⟩
  rw [OverMasstree.abort, hremoved]
  rfl

variable [Inhabited β]

theorem Refines.execute (h : Refines s t) (p : Procedure ShortKey β) :
    Alike Refines (execute s p) (Serial.execute t p) := by
  cases p with
  | INSERT k b => exact h.insert k b
  | WRITE k b => exact h.write k b
  | DELETE k => exact h.tx_delete k
  | READ k =>
    rcases (h.read k).cases with ⟨hs, ht⟩ | ⟨status, s', t', hs, ht, h'⟩
    · simp only [OverMasstree.execute, Serial.execute, hs, ht]
      exact .none
    · simp only [OverMasstree.execute, Serial.execute, hs, ht]
      cases status
      case OK => exact .ok (h'.tell (fun tx => tx.read_key_value_pairs ++ [(k, tx.read_value)]) fun _ _ => rfl)
      all_goals exact .ok h'
  | SCAN l lx r rx =>
    rcases (h.scan l r lx rx).cases_stateLast with ⟨hs, ht⟩ | ⟨status, result, s', t', hs, ht, h'⟩
    · simp only [OverMasstree.execute, Serial.execute, hs, ht]
      exact .none
    · simp only [OverMasstree.execute, Serial.execute, hs, ht]
      cases status
      case OK => exact .ok (h'.tell (fun tx => tx.read_key_value_pairs ++ result) fun _ _ => rfl)
      all_goals exact .ok h'

theorem Refines.executeAll (h : Refines s t) (ps : List (Procedure ShortKey β)) :
    Alike Refines ((executeAll s ps).map stateLast)
      ((Serial.executeAll t ps).map stateLast) := by
  induction ps generalizing s t with
  | nil => exact .ok h
  | cons p ps ih =>
    rw [OverMasstree.executeAll, Serial.executeAll]
    rcases (h.execute p).cases with ⟨hs, ht⟩ | ⟨status, s', t', hs, ht, h'⟩
    · rw [hs, ht]
      exact .none
    · rw [hs, ht]
      cases status
      case OK => exact ih h'
      all_goals exact .ok h'

theorem Refines.execute_transaction (arrange : List ShortKey → List ShortKey) (epochs : List Nat)
    (ps : List (Procedure ShortKey β)) (h : Refines s t) :
    Alike Refines ((execute_transaction arrange epochs s ps).map stateLast)
      ((Serial.execute_transaction arrange epochs t ps).map stateLast) := by
  induction epochs generalizing s t with
  | nil => exact .none
  | cons localEpoch epochs ih =>
    rw [OverMasstree.execute_transaction, Serial.execute_transaction, attempt]
    have hbegin : Refines { s with tx := s.tx.begin } t.begin := by
      obtain ⟨index, tx⟩ := h
      generalize hmap : t.masstree = map at index tx
      subst tx
      exact .of index _
    rcases (hbegin.executeAll ps).cases_stateLast with ⟨hs, ht⟩ | ⟨status, lines, s', t', hs, ht, h'⟩
    · rw [hs, ht]
      exact .none
    · rw [hs, ht]
      obtain ⟨s'', habort, h''⟩ := h'.abort
      cases status
      case OK =>
        obtain ⟨index, tx⟩ := h'
        generalize hmap : t'.masstree = map at index tx
        subst tx
        simp only [validationPhase_withTree]
        cases hvalid : validationPhase arrange s'.tx with
        | mk tx passed =>
          cases passed with
          | true =>
            simp only [writePhase_withTree]
            cases writePhase tx localEpoch with
            | none => exact .none
            | some tx' => exact .ok (.of index tx')
          | false =>
            obtain ⟨s₂, habort₂, h₂⟩ := (Refines.of index tx).abort
            simp only [habort₂]
            exact ih h₂
      all_goals
        simp only [habort]
        exact .ok h''

theorem Refines.answer (arrange : List ShortKey → List ShortKey) (request : Request β) (h : Refines s t) :
    Alike Refines (answer arrange s request) (answerOverMap arrange t request) := by
  unfold OverMasstree.answer answerOverMap
  rcases (h.execute_transaction arrange request.epochs request.pro_set_).cases_stateLast with
    ⟨hs, ht⟩ | ⟨code, lines, s', t', hs, ht, h'⟩
  · rw [hs, ht]
    exact .none
  · have hpairs : t'.read_key_value_pairs = s'.tx.read_key_value_pairs := by
      rw [h'.tx]
      rfl
    rw [hs, ht, Option.map_some, Option.map_some, hpairs]
    exact .ok h'

omit [Inhabited β] in
theorem Refines.visible (h : Refines s t) (k : ShortKey) : s.visible k = some (t.visible k) := by
  obtain ⟨index, tx⟩ := h
  generalize hmap : t.masstree = map at index tx
  subst tx
  rw [OverMasstree.State.visible, index.get_value, Serial.State.visible]
  change _ = some (match map[k]? with | none => none | some v => _)
  cases map[k]? with
  | none => rfl
  | some v => rfl

theorem Refines.new : Refines (.new : State ShortKey β) .new := .of .new _

end

/-- Every list of requests, from the empty store, is answered over Masstree as over a sorted map: the
same code, the same lines and the same pairs for each, and a list that one of the two leaves without an
answer the other leaves so too. Afterwards every key is found with the same body. -/
theorem serve_eq_overMap [Inhabited β] (arrange : List ShortKey → List ShortKey) (requests : List (Request β)) :
    (serve (answer arrange) .new requests).map Prod.fst =
        (serve (answerOverMap arrange) .new requests).map Prod.fst ∧
      ∀ s, (serve (answer arrange) .new requests).map Prod.snd = some s →
        ∃ t, (serve (answerOverMap arrange) .new requests).map Prod.snd = some t ∧
          ∀ k, s.visible k = some (t.visible k) := by
  have hserve : Alike Refines (serve (answer arrange) (.new : State ShortKey β) requests)
      (serve (answerOverMap arrange) .new requests) :=
    serve_alike (fun _ _ request h => h.answer arrange request) requests .new
  rcases hserve.cases with ⟨hs, ht⟩ | ⟨answers, s, t, hs, ht, h⟩
  · simp only [hs, ht, Option.map_none, reduceCtorEq, false_implies, implies_true, and_self]
  · simp only [hs, ht, Option.map_some, Option.some.injEq, true_and]
    rintro s' rfl
    exact ⟨t, rfl, h.visible⟩

end Cassa.SiloCC.OverMasstree
