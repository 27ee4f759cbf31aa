import Mathlib
import Cassa.SiloCC.Element

/-!
# One worker, one transaction after another

`execute_transaction` of `cassa_server.cpp` with the `TxExecutor` it drives, when no
other worker is active: every operation runs to its end, so it is a function on the
state. Masstree is taken as a correct map; its entries come back in key order.

`std::sort` arranges the write set by its keys. `Key::operator<` is no strict weak
order on keys of more than eight bytes, so the arrangement is a parameter of which
only that it is a permutation is ever used.
-/

namespace Cassa.SiloCC.Serial

variable {K β : Type} [LinearOrder K]

/-- One operation of a request, as `json_to_procedures` leaves it in `pro_set_`. -/
inductive Procedure (K β : Type) where
  | READ (key_ : K)
  | WRITE (key_ : K) (value_ : β)
  | INSERT (key_ : K) (value_ : β)
  | DELETE (key_ : K)
  | SCAN (left_key_ : K) (l_exclusive_ : Bool) (right_key_ : K) (r_exclusive_ : Bool)
  deriving DecidableEq

/-- What `execute_transaction` appends to the message for the client. -/
inductive ErrorLine (K : Type) where
  | alreadyExists (key_ : K)
  | notFound (key_ : K)
  | aborted
  deriving DecidableEq

def ErrorLine.text (render : K → String) : ErrorLine K → String
  | .alreadyExists k => "Key: " ++ render k ++ " is already exists\n"
  | .notFound k => "Key: " ++ render k ++ " is not found\n"
  | .aborted => "Transaction has been aborted.\n"

/-- The index and the records, the `TxExecutor` of the worker, and the variables that
`execute_transaction` keeps over the operations of a request. -/
structure State (K β : Type) [LinearOrder K] where
  masstree : Std.TreeMap K ValuePtr
  mem : ValuePtr → Value β
  /-- the next address that `new Value` returns -/
  next : ValuePtr
  status_ : TransactionStatus
  read_set_ : List (ReadElement K)
  write_set_ : List (WriteElement K β)
  max_rset_ : TIDword
  max_wset_ : TIDword
  mrctid_ : TIDword
  /-- `nid_.read_key_value_pairs`: what the client is told of its READs and SCANs -/
  read_key_value_pairs : List (K × β)
  /-- the variable that `read` is handed as `retrun_value` -/
  read_value : β

def State.new [Inhabited β] : State K β where
  masstree := ∅
  mem := fun _ => ⟨.new, default⟩
  next := 0
  status_ := .Invalid
  read_set_ := []
  write_set_ := []
  max_rset_ := .zero
  max_wset_ := .zero
  mrctid_ := .new
  read_key_value_pairs := []
  read_value := default

def State.tidword (s : State K β) (v : ValuePtr) : TIDword := (s.mem v).tidword_

def State.body (s : State K β) (v : ValuePtr) : β := (s.mem v).body_

def State.setTid (s : State K β) (v : ValuePtr) (t : TIDword) : State K β :=
  { s with mem := Function.update s.mem v { s.mem v with tidword_ := t } }

def State.setBody (s : State K β) (v : ValuePtr) (b : β) : State K β :=
  { s with mem := Function.update s.mem v { s.mem v with body_ := b } }

def searchReadSet (rs : List (ReadElement K)) (k : K) : Option (ReadElement K) :=
  rs.find? fun re => re.key_ = k

/-- `begin`, with the variables that `execute_transaction` declares right after it. -/
def State.begin [Inhabited β] (s : State K β) : State K β :=
  { s with status_ := .InFlight, max_wset_ := .zero, max_rset_ := .zero, read_set_ := [],
           write_set_ := [], read_key_value_pairs := [], read_value := default }

def insert (s : State K β) (key : K) (value : β) : Status × State K β :=
  if (searchWriteSet s.write_set_ key).isSome then (.WARN_ALREADY_EXISTS, s)
  else match s.masstree[key]? with
    | some _ => (.WARN_ALREADY_EXISTS, s)
    | none =>
      let word := TIDword.new.init
      (.OK, { s with
        mem := Function.update s.mem s.next ⟨word, value⟩
        next := s.next + 1
        masstree := s.masstree.insert key s.next
        read_set_ := s.read_set_ ++ [⟨key, s.next, word, .READ⟩]
        write_set_ := s.write_set_ ++ [⟨key, s.next, value, .INSERT⟩] })

/-- The record that `write` and `tx_delete` take for a key: the one of the read set,
else the one of the tree. -/
def findValue (s : State K β) (key : K) : Option ValuePtr :=
  match searchReadSet s.read_set_ key with
  | some readElement => some readElement.value_
  | none => s.masstree[key]?

def tx_delete [Inhabited β] (s : State K β) (key : K) : Status × State K β :=
  match searchWriteSet s.write_set_ key with
  | some writeElement => if writeElement.op_ = .INSERT then (.WARN_NOT_FOUND, s) else (.OK, s)
  | none => match findValue s key with
    | none => (.WARN_NOT_FOUND, s)
    | some v => (.OK, { s with write_set_ := s.write_set_ ++ [⟨key, v, default, .DELETE⟩] })

def write (s : State K β) (key : K) (value : β) : Status × State K β :=
  if (searchWriteSet s.write_set_ key).isSome then (.OK, s)
  else match findValue s key with
    | none => (.WARN_NOT_FOUND, s)
    | some v => (.OK, { s with write_set_ := s.write_set_ ++ [⟨key, v, value, .WRITE⟩] })

/-- On a locked record the loop never ends: there is no other worker to unlock it. -/
def read_internal (s : State K β) (key : K) (value : ValuePtr) : Option (Status × State K β) :=
  let expected := s.tidword value
  if expected.lock then none
  else if expected.absent then some (.WARN_NOT_FOUND, s)
  else some (.OK, { s with read_set_ := s.read_set_ ++ [⟨key, value, expected, .READ⟩] })

/-- Both jumps to `FINISH_READ` leave `retrun_value` as it is. -/
def read (s : State K β) (key : K) : Option (Status × State K β) :=
  if (searchReadSet s.read_set_ key).isSome then some (.OK, s)
  else if (searchWriteSet s.write_set_ key).isSome then some (.OK, s)
  else match s.masstree[key]? with
    | none => some (.WARN_NOT_FOUND, s)
    | some found_value =>
      match read_internal s key found_value with
      | some (.OK, s') => some (.OK, { s' with read_value := s'.body found_value })
      | r => r

def inRange (left : K) (l_exclusive : Bool) (right : K) (r_exclusive : Bool) (k : K) : Bool :=
  (if l_exclusive then left < k else left ≤ k) && (if r_exclusive then k < right else k ≤ right)

/-- `Masstree::scan`. -/
def masstreeScan (tree : Std.TreeMap K ValuePtr) (range : K → Bool) : List (K × ValuePtr) :=
  tree.toList.filter fun p => range p.1

/-- The first loop of `scan`: `result` takes the keys found in a local set, the other
ones only enter the read set. -/
def scanLoop (s : State K β) (result : List (K × β)) :
    List (K × ValuePtr) → Option (Status × State K β × List (K × β))
  | [] => some (.OK, s, result)
  | (k, v) :: rest =>
    match searchReadSet s.read_set_ k with
    | some readElement => scanLoop s (result ++ [(k, s.body readElement.value_)]) rest
    | none => match searchWriteSet s.write_set_ k with
      | some writeElement => scanLoop s (result ++ [(k, writeElement.new_value_body_)]) rest
      | none => match read_internal s k v with
        | none => none
        | some (status, s') =>
          if status ≠ .OK ∧ status ≠ .WARN_NOT_FOUND then some (status, s', result)
          else scanLoop s' result rest

def scan (s : State K β) (range : K → Bool) : Option (Status × State K β × List (K × β)) :=
  match scanLoop s [] (masstreeScan s.masstree range) with
  | some (.OK, s', result) =>
    let added := s'.read_set_.drop s.read_set_.length
    some (.OK, s', result ++ added.map fun itr => (itr.key_, s'.body itr.value_))
  | r => r

def sortWriteSet (arrange : List K → List K) (ws : List (WriteElement K β)) :
    List (WriteElement K β) :=
  (arrange (ws.map (·.key_))).filterMap (searchWriteSet ws)

/-- `unlockWriteSet`, over the whole write set or over the part before an iterator. -/
def unlockWriteSet (s : State K β) (ws : List (WriteElement K β)) : State K β :=
  ws.foldl (fun s we =>
    if we.op_ = .INSERT then s
    else s.setTid we.value_ { s.tidword we.value_ with lock := false }) s

/-- `lockWriteSet` from an iterator on; `before` is the part of the write set in front
of it. -/
def lockWriteSet (s : State K β) (before : List (WriteElement K β)) :
    List (WriteElement K β) → State K β
  | [] => s
  | we :: rest =>
    if we.op_ = .INSERT then lockWriteSet s (before ++ [we]) rest
    else
      let expected := s.tidword we.value_
      if expected.lock then unlockWriteSet { s with status_ := .Aborted } before
      else
        lockWriteSet
          { s.setTid we.value_ { expected with lock := true } with
            max_wset_ := TIDword.max s.max_wset_ expected }
          (before ++ [we]) rest

/-- The conditions under which `validationPhase` gives up on a read-set element. -/
def validationFails (s : State K β) (re : ReadElement K) (check : TIDword) : Bool :=
  (re.op_ == .INSERT && !check.absent) || re.tidword_.epoch != check.epoch ||
    re.tidword_.TID != check.TID || (check.lock && (searchWriteSet s.write_set_ re.key_).isNone)

def validateReadSet (s : State K β) : List (ReadElement K) → State K β × Bool
  | [] => ({ s with status_ := .Committed }, true)
  | re :: rest =>
    let check := s.tidword re.value_
    if validationFails s re check then
      (unlockWriteSet { s with status_ := .Aborted } s.write_set_, false)
    else validateReadSet { s with max_rset_ := TIDword.max s.max_rset_ check } rest

def validationPhase (arrange : List K → List K) (s : State K β) : State K β × Bool :=
  let sorted := { s with write_set_ := sortWriteSet arrange s.write_set_ }
  let locked := lockWriteSet sorted [] sorted.write_set_
  validateReadSet locked locked.read_set_

/-- The loop of `writePhase`. A DELETE leaves the absent bit of `maxtid` set for the
elements after it and an INSERT clears it. Any other operation is `assert(false)`. -/
def writeLoop (s : State K β) (maxtid : TIDword) : List (WriteElement K β) → Option (State K β)
  | [] => some s
  | we :: rest =>
    match we.op_ with
    | .WRITE => writeLoop ((s.setBody we.value_ we.new_value_body_).setTid we.value_ maxtid) maxtid rest
    | .INSERT =>
      let maxtid := { maxtid with absent := false }
      writeLoop (s.setTid we.value_ maxtid) maxtid rest
    | .DELETE =>
      let maxtid := { maxtid with absent := true }
      writeLoop (s.setTid we.value_ maxtid) maxtid rest
    | _ => none

/-- `writePhase` in the epoch that `validationPhase` has stored for the worker. -/
def writePhase (s : State K β) (localEpoch : Nat) : Option (State K β) :=
  let maxtid := commitTid s.max_rset_ s.max_wset_ s.mrctid_ localEpoch
  writeLoop { s with mrctid_ := maxtid } maxtid s.write_set_

def abort (s : State K β) : State K β :=
  { s with
    masstree := s.write_set_.foldl
      (fun tree we => if we.op_ = .INSERT then tree.erase we.key_ else tree) s.masstree
    read_set_ := []
    write_set_ := [] }

/-- The loop body of `execute_transaction`. -/
def execute [Inhabited β] (s : State K β) : Procedure K β → Option (Status × State K β)
  | .INSERT k b => some (insert s k b)
  | .READ k =>
    match read s k with
    | some (.OK, s') => some (.OK, { s' with
        read_key_value_pairs := s'.read_key_value_pairs ++ [(k, s'.read_value)] })
    | r => r
  | .WRITE k b => some (write s k b)
  | .SCAN l lx r rx =>
    match scan s (inRange l lx r rx) with
    | some (.OK, s', scan_result) => some (.OK, { s' with
        read_key_value_pairs := s'.read_key_value_pairs ++ scan_result })
    | some (status, s', _) => some (status, s')
    | none => none
  | .DELETE k => some (tx_delete s k)

/-- The message that the loop body adds for a status. -/
def refusal : Procedure K β → Status → List (ErrorLine K)
  | .INSERT k _, .WARN_ALREADY_EXISTS => [.alreadyExists k]
  | .READ k, .WARN_NOT_FOUND => [.notFound k]
  | .WRITE k _, .WARN_NOT_FOUND => [.notFound k]
  | .DELETE k, .WARN_NOT_FOUND => [.notFound k]
  | _, _ => []

/-- The loop over `pro_set_`, left at the first status that is not `OK`. -/
def executeAll [Inhabited β] (s : State K β) :
    List (Procedure K β) → Option (Status × State K β × List (ErrorLine K))
  | [] => some (.OK, s, [])
  | p :: ps =>
    match execute s p with
    | none => none
    | some (.OK, s') => executeAll s' ps
    | some (status, s') => some (status, s', refusal p status)

inductive Attempt (K β : Type) [LinearOrder K] where
  | committed (s : State K β)
  | refused (s : State K β) (error_message_content : List (ErrorLine K))
  | retry (s : State K β)

/-- From `RETRY` to a `return` or to `goto RETRY`. -/
def attempt [Inhabited β] (arrange : List K → List K) (localEpoch : Nat) (s : State K β)
    (pro_set_ : List (Procedure K β)) : Option (Attempt K β) :=
  match executeAll s.begin pro_set_ with
  | none => none
  | some (.OK, s', _) =>
    match validationPhase arrange s' with
    | (s'', true) => (writePhase s'' localEpoch).map .committed
    | (s'', false) => some (.retry (abort s''))
  | some (_, s', lines) => some (.refused (abort s') (lines ++ [.aborted]))

/-- The result code, the state and the message. The list holds the epochs that the
attempts find. -/
def execute_transaction [Inhabited β] (arrange : List K → List K) :
    List Nat → State K β → List (Procedure K β) → Option (Int × State K β × List (ErrorLine K))
  | [], _, _ => none
  | localEpoch :: epochs, s, pro_set_ =>
    match attempt arrange localEpoch s pro_set_ with
    | none => none
    | some (.committed s') => some (0, s', [])
    | some (.refused s' lines) => some (-2, s', lines)
    | some (.retry s') => execute_transaction arrange epochs s' pro_set_

/-- The states between two requests, from the empty database on. -/
inductive Reachable [Inhabited β] (arrange : List K → List K) : State K β → Prop
  | new : Reachable arrange State.new
  | step {s s' : State K β} {epochs : List Nat} {pro_set_ : List (Procedure K β)} {result : Int}
      {lines : List (ErrorLine K)} :
    Reachable arrange s → execute_transaction arrange epochs s pro_set_ = some (result, s', lines) →
    Reachable arrange s'

/-- The visible state: the bodies of the records whose absent bit is clear. -/
def State.visible (s : State K β) (k : K) : Option β :=
  match s.masstree[k]? with
  | none => none
  | some v => if (s.tidword v).absent then none else some (s.body v)

/-- The tree holds a record for the key, and its absent bit is set. -/
def State.ghost (s : State K β) (k : K) : Bool := s.masstree[k]?.isSome && (s.visible k).isNone

end Cassa.SiloCC.Serial
