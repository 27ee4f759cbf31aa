import Mathlib.Data.List.Basic
import Cassa.Common.Bytes

/-!
# Messages on a connection

`openssl_utility.cpp`: a message is the length of its payload, as the eight bytes of a
`size_t`, and the payload. The payload goes through a loop on both sides. The length is
handed to `SSL_write` and `SSL_read` once, whatever part of it they transfer.
-/

namespace Cassa.Tls

open Cassa.SiloR

/-- The outcome of one call of `SSL_read` or `SSL_write`. `want` is `WANT_READ` of `SSL_read` and
`WANT_WRITE` of `SSL_write`; the other way round they are errors, like any other code. -/
inductive SslResult where
  | bytes (n : Nat)
  | want
  | error
  deriving DecidableEq

/-- At least one byte is moved, and no more than there are. -/
def moved (n available : Nat) : Nat := min (max 1 n) available

/-- The conversion of a `size_t` to the `int` that the library takes. -/
def toInt (size : Nat) : Int := (BitVec.ofNat 32 size).toInt

/-- The largest `std::string` and `std::vector<char>`. -/
def max_size : Nat := 2 ^ 63 - 1

/-- The loop over the payload: what it returns, the bytes that it put on the connection, and the
results that are left. `none` while it is waiting. -/
def writeLoop : List SslResult → List UInt8 → Option (Int × List UInt8 × List SslResult)
  | results, [] => some (0, [], results)
  | [], _ :: _ => none
  | .want :: results, payload => writeLoop results payload
  | .error :: results, _ => some (-1, [], results)
  | .bytes n :: results, payload =>
    if toInt payload.length < 0 then some (-1, [], results)
    else if toInt payload.length = 0 then some (0, [], results)
    else
      let bytes_written := moved n (toInt payload.length).toNat
      (writeLoop results (payload.drop bytes_written)).map fun (ret, sent, results) =>
        (ret, payload.take bytes_written ++ sent, results)

def tls_write_to_session_peer (payload : List UInt8) :
    List SslResult → Option (Int × List UInt8 × List SslResult)
  | [] => none
  | .bytes n :: results =>
    let data_size := littleEndian 8 payload.length
    (writeLoop results payload).map fun (ret, sent, results) => (ret, data_size.take (moved n 8) ++ sent, results)
  | .want :: results => some (-1, [], results)
  | .error :: results => some (-1, [], results)

/-- The loop over the payload, with what it has read before. Without a byte on the connection
`SSL_read` wants to read. -/
def readLoop : List SslResult → Nat → List UInt8 → List UInt8 →
    Option (Int × List UInt8 × List UInt8 × List SslResult)
  | results, 0, payload, stream => some (0, payload, stream, results)
  | [], _ + 1, _, _ => none
  | .want :: results, data_size, payload, stream => readLoop results data_size payload stream
  | .error :: results, _, payload, stream => some (-1, payload, stream, results)
  | .bytes n :: results, data_size, payload, stream =>
    if toInt data_size < 0 then some (-1, payload, stream, results)
    else if toInt data_size = 0 then some (0, payload, stream, results)
    else
      let bytes_read := moved n (min (toInt data_size).toNat stream.length)
      readLoop results (data_size - bytes_read) (payload ++ stream.take bytes_read) (stream.drop bytes_read)

/-- What it returns, the payload, the bytes left on the connection, and the results that are left.
Only the bytes of `data_size` that were read are set. -/
def tls_read_from_session_peer (stream : List UInt8) :
    List SslResult → Option (Int × List UInt8 × List UInt8 × List SslResult)
  | [] => none
  | .bytes n :: results =>
    if stream.isEmpty then some (-1, [], stream, results)
    else
      let bytes_read := moved n (min 8 stream.length)
      let data_size := ofLittleEndian (stream.take bytes_read)
      -- `reserve` throws
      if max_size < data_size then none
      else readLoop results data_size [] (stream.drop bytes_read)
  | .want :: results => some (-1, [], stream, results)
  | .error :: results => some (-1, [], stream, results)

/-- No error, and enough calls that move a byte. -/
structure Enough (results : List SslResult) (n : Nat) : Prop where
  error : .error ∉ results
  bytes : n ≤ results.countP fun r => r matches .bytes _

theorem toInt_eq {n : Nat} (h : n < 2 ^ 31) : toInt n = n := by
  rw [toInt, BitVec.toInt_eq_toNat_of_lt]
  · rw [BitVec.toNat_ofNat, Nat.mod_eq_of_lt (by omega)]
  · rw [BitVec.toNat_ofNat, Nat.mod_eq_of_lt (by omega)]
    omega

theorem toInt_le (n : Nat) : (toInt n).toNat ≤ n := by
  have hmod : n % 2 ^ 32 ≤ n := Nat.mod_le _ _
  rw [toInt, BitVec.toInt_eq_toNat_cond, BitVec.toNat_ofNat]
  split
  · omega
  · omega

theorem Enough.want {results : List SslResult} {n : Nat} (h : Enough (.want :: results) n) : Enough results n := by
  refine ⟨fun he => h.error (List.mem_cons_of_mem _ he), ?_⟩
  simpa using h.bytes

theorem Enough.moved {results : List SslResult} {k n n' : Nat} (h : Enough (.bytes k :: results) n) (hn : n' < n) :
    Enough results n' := by
  refine ⟨fun he => h.error (List.mem_cons_of_mem _ he), ?_⟩
  have := h.bytes
  rw [List.countP_cons_of_pos (by rfl)] at this
  omega

theorem moved_pos {n available : Nat} (h : 0 < available) : 0 < moved n available := by
  unfold moved
  omega

theorem moved_le (n available : Nat) : moved n available ≤ available := Nat.min_le_right _ _

/-- The sender puts its payload on the connection. -/
theorem writeLoop_sends : ∀ {results : List SslResult} {payload : List UInt8}, payload.length < 2 ^ 31 →
    Enough results payload.length → ∃ results', writeLoop results payload = some (0, payload, results') := by
  intro results
  induction results with
  | nil =>
    intro payload _ henough
    obtain rfl : payload = [] := by simpa using henough.bytes
    exact ⟨[], rfl⟩
  | cons result results ih =>
    intro payload hlen henough
    cases payload with
    | nil => exact ⟨result :: results, by unfold writeLoop; rfl⟩
    | cons b payload =>
      cases result with
      | want => exact ih hlen henough.want
      | error => exact absurd List.mem_cons_self henough.error
      | bytes n =>
        have hint := toInt_eq hlen
        have hpos : 0 < (b :: payload).length := Nat.succ_pos _
        set k := Tls.moved n (b :: payload).length with hk
        have hkpos : 0 < k := moved_pos hpos
        have hdrop : ((b :: payload).drop k).length < (b :: payload).length := by
          rw [List.length_drop]
          omega
        obtain ⟨results', hrest⟩ := ih (Nat.lt_trans hdrop hlen) (henough.moved hdrop)
        refine ⟨results', ?_⟩
        rw [writeLoop, hint, if_neg (by omega), if_neg (by omega)]
        · simp only [Int.toNat_natCast, ← hk]
          rw [hrest, Option.map_some]
          dsimp only
          rw [List.take_append_drop]
        · exact List.cons_ne_nil _ _

/-- The receiver takes a payload off the connection. -/
theorem readLoop_receives : ∀ {results : List SslResult} {data payload rest : List UInt8}, data.length < 2 ^ 31 →
    Enough results data.length → ∃ results',
      readLoop results data.length payload (data ++ rest) = some (0, payload ++ data, rest, results') := by
  intro results
  induction results with
  | nil =>
    intro data payload rest _ henough
    obtain rfl : data = [] := by simpa using henough.bytes
    exact ⟨[], by simp [readLoop]⟩
  | cons result results ih =>
    intro data payload rest hlen henough
    cases data with
    | nil => exact ⟨result :: results, by simp [readLoop]⟩
    | cons b data =>
      cases result with
      | want => exact ih hlen henough.want
      | error => exact absurd List.mem_cons_self henough.error
      | bytes n =>
        have hint := toInt_eq hlen
        have hpos : 0 < (b :: data).length := Nat.succ_pos _
        have hmin : min (b :: data).length (b :: data ++ rest).length = (b :: data).length := by
          rw [List.length_append]
          omega
        set k := Tls.moved n (b :: data).length with hk
        have hkpos : 0 < k := moved_pos hpos
        have hkle : k ≤ (b :: data).length := moved_le _ _
        have hdrop : ((b :: data).drop k).length = (b :: data).length - k := List.length_drop
        obtain ⟨results', hrest⟩ := @ih ((b :: data).drop k) (payload ++ (b :: data).take k) rest
          (by rw [hdrop]; omega) (henough.moved (by rw [hdrop]; omega))
        refine ⟨results', ?_⟩
        rw [readLoop, hint, if_neg (by omega), if_neg (by omega)]
        · simp only [Int.toNat_natCast, hmin, ← hk]
          rw [List.take_append_of_le_length hkle, List.drop_append_of_le_length hkle, ← hdrop, hrest, List.append_assoc,
            List.take_append_drop]
        · exact Nat.succ_ne_zero _

/-- Whatever the receiver returns, it has taken no more than `data_size` bytes, and these are what it
adds to the payload. -/
theorem readLoop_takes : ∀ {results results' : List SslResult} {data_size : Nat} {ret : Int}
    {payload payload' stream stream' : List UInt8},
    readLoop results data_size payload stream = some (ret, payload', stream', results') →
    ∃ taken, stream = taken ++ stream' ∧ payload' = payload ++ taken ∧ taken.length ≤ data_size := by
  intro results
  induction results with
  | nil =>
    intro results' data_size ret payload payload' stream stream' hres
    cases data_size with
    | zero =>
      obtain ⟨-, rfl, rfl, -⟩ : _ ∧ _ ∧ _ ∧ _ := by simpa [readLoop] using hres
      exact ⟨[], rfl, (List.append_nil _).symm, Nat.zero_le _⟩
    | succ data_size => cases hres
  | cons result results ih =>
    intro results' data_size ret payload payload' stream stream' hres
    have hdone : ∀ {p q : List UInt8}, p = payload → q = stream → payload' = p → stream' = q →
        ∃ taken, stream = taken ++ stream' ∧ payload' = payload ++ taken ∧ taken.length ≤ data_size := by
      rintro p q rfl rfl rfl rfl
      exact ⟨[], rfl, (List.append_nil _).symm, Nat.zero_le _⟩
    cases data_size with
    | zero =>
      obtain ⟨-, hp, hs, -⟩ : _ ∧ _ ∧ _ ∧ _ := by simpa [readLoop] using hres
      exact hdone rfl rfl hp.symm hs.symm
    | succ d =>
      cases result with
      | want => exact ih hres
      | error =>
        obtain ⟨-, hp, hs, -⟩ : _ ∧ _ ∧ _ ∧ _ := by simpa [readLoop] using hres
        exact hdone rfl rfl hp.symm hs.symm
      | bytes n =>
        rw [readLoop] at hres
        · split at hres
          · obtain ⟨-, hp, hs, -⟩ : _ ∧ _ ∧ _ ∧ _ := by simpa using hres
            exact hdone rfl rfl hp.symm hs.symm
          split at hres
          · obtain ⟨-, hp, hs, -⟩ : _ ∧ _ ∧ _ ∧ _ := by simpa using hres
            exact hdone rfl rfl hp.symm hs.symm
          · dsimp only at hres
            set k := Tls.moved n (min (toInt (d + 1)).toNat stream.length) with hk
            obtain ⟨taken, hstream, hpayload, hle⟩ := ih hres
            refine ⟨stream.take k ++ taken, ?_, ?_, ?_⟩
            · rw [List.append_assoc, ← hstream, List.take_append_drop]
            · rw [hpayload, List.append_assoc]
            · have hkle : k ≤ d + 1 :=
                Nat.le_trans (moved_le _ _) (Nat.le_trans (Nat.min_le_left _ _) (toInt_le _))
              rw [List.length_append, List.length_take]
              omega
        · exact Nat.succ_ne_zero _

/-- The peer reads the payload that was written, and nothing of what follows it. -/
def Delivers (payload rest : List UInt8) (writes reads : List SslResult) : Prop :=
  ∃ wire writes' reads', tls_write_to_session_peer payload writes = some (0, wire, writes') ∧
    tls_read_from_session_peer (wire ++ rest) reads = some (0, payload, rest, reads')

theorem take_littleEndian {k n : Nat} (h : k ≤ n) (x : Nat) : (littleEndian n x).take k = littleEndian k x := by
  induction n generalizing k x with
  | zero =>
    obtain rfl := Nat.le_zero.mp h
    rfl
  | succ n ih =>
    cases k with
    | zero => rfl
    | succ k => rw [littleEndian, littleEndian, List.take_succ_cons, ih (Nat.le_of_succ_le_succ h)]

theorem ofLittleEndian_mod (n x : Nat) : ofLittleEndian (littleEndian n x) = x % 256 ^ n := by
  induction n generalizing x with
  | zero => simp [littleEndian, ofLittleEndian, Nat.mod_one]
  | succ n ih =>
    rw [littleEndian, ofLittleEndian, ih, Nat.pow_succ', Nat.mod_mul]
    simp

/-- Where the two sides move the same number `w` of bytes of the length, the message arrives if and
only if the length fits into these bytes. -/
theorem read_same_header {payload rest : List UInt8} {w n : Nat} {reads : List SslResult}
    (hlen : payload.length < 2 ^ 31) (hw : 0 < w ∧ w ≤ 8) (hreads : Enough reads payload.length)
    (hr : moved n (min 8 (littleEndian w payload.length ++ payload ++ rest).length) = w) :
    (∃ reads', tls_read_from_session_peer (littleEndian w payload.length ++ payload ++ rest) (.bytes n :: reads) =
        some (0, payload, rest, reads')) ↔ payload.length < 256 ^ w := by
  have hne : (littleEndian w payload.length ++ payload ++ rest).isEmpty = false := by
    have : 0 < (littleEndian w payload.length).length := by
      rw [length_littleEndian]
      exact hw.1
    rw [List.isEmpty_eq_false_iff_exists_mem]
    obtain ⟨x, hx⟩ := List.exists_mem_of_length_pos this
    exact ⟨x, List.mem_append_left _ (List.mem_append_left _ hx)⟩
  have htake : (littleEndian w payload.length ++ payload ++ rest).take w = littleEndian w payload.length := by
    rw [List.append_assoc]
    exact List.take_left' (length_littleEndian _ _)
  have hdrop : (littleEndian w payload.length ++ payload ++ rest).drop w = payload ++ rest := by
    rw [List.append_assoc]
    exact List.drop_left' (length_littleEndian _ _)
  have hmod : payload.length % 256 ^ w ≤ payload.length := Nat.mod_le _ _
  rw [tls_read_from_session_peer, hne, if_neg Bool.false_ne_true]
  dsimp only
  rw [hr, htake, hdrop, ofLittleEndian_mod, if_neg (by unfold max_size; omega)]
  constructor
  · rintro ⟨reads', hres⟩
    obtain ⟨taken, hstream, hpayload, hle⟩ := readLoop_takes hres
    rw [List.nil_append] at hpayload
    rw [← hpayload] at hle
    have heq : payload.length % 256 ^ w = payload.length := by omega
    rw [← heq]
    exact Nat.mod_lt _ (Nat.pow_pos (by decide))
  · intro hfits
    rw [Nat.mod_eq_of_lt hfits]
    obtain ⟨reads', hres⟩ := @readLoop_receives reads payload [] rest hlen hreads
    exact ⟨reads', hres⟩

/-- A message arrives if and only if both sides move the same part of its length and this part tells
the length. -/
theorem message_delivered_iff {payload rest : List UInt8} {nw nr : Nat} {writes reads : List SslResult}
    (hlen : payload.length < 2 ^ 31) (hwrites : Enough writes payload.length) (hreads : Enough reads payload.length) :
    Delivers payload rest (.bytes nw :: writes) (.bytes nr :: reads) ↔
      moved nr (min 8 (moved nw 8 + payload.length + rest.length)) = moved nw 8 ∧
        payload.length < 256 ^ moved nw 8 := by
  obtain ⟨writes', hsends⟩ := writeLoop_sends hlen hwrites
  set w := moved nw 8 with hw
  have hwpos : 0 < w ∧ w ≤ 8 := ⟨moved_pos (by decide), moved_le _ _⟩
  have hwrite : tls_write_to_session_peer payload (.bytes nw :: writes) =
      some (0, littleEndian w payload.length ++ payload, writes') := by
    rw [tls_write_to_session_peer, hsends, Option.map_some]
    dsimp only
    rw [← hw, take_littleEndian hwpos.2]
  have hstream : (littleEndian w payload.length ++ payload ++ rest).length = w + payload.length + rest.length := by
    rw [List.length_append, List.length_append, length_littleEndian]
  constructor
  · rintro ⟨wire, writes'', reads', hwrite', hread⟩
    obtain ⟨rfl, -⟩ : littleEndian w payload.length ++ payload = wire ∧ writes' = writes'' := by
      simpa using hwrite.symm.trans hwrite'
    have hr : moved nr (min 8 (littleEndian w payload.length ++ payload ++ rest).length) = w := by
      have hread' := hread
      rw [tls_read_from_session_peer] at hread'
      split at hread'
      · cases hread'
      dsimp only at hread'
      split at hread'
      · cases hread'
      obtain ⟨taken, hrest, hpayload, -⟩ := readLoop_takes hread'
      rw [List.nil_append] at hpayload
      have hlens := congrArg List.length hrest
      rw [List.length_drop, hstream, List.length_append, ← hpayload] at hlens
      have hle := Nat.le_trans (moved_le nr (min 8 (littleEndian w payload.length ++ payload ++ rest).length))
        (Nat.min_le_right _ _)
      rw [hstream] at hle ⊢
      omega
    refine ⟨by rw [← hstream]; exact hr, ?_⟩
    exact (read_same_header hlen hwpos hreads hr).mp ⟨reads', hread⟩
  · rintro ⟨hr, hfits⟩
    rw [← hstream] at hr
    obtain ⟨reads', hread⟩ := (read_same_header hlen hwpos hreads hr).mpr hfits
    exact ⟨_, writes', reads', hwrite, hread⟩

/-- Three bytes in two parts on either side, each with the whole length first. -/
theorem message_delivered_in_parts :
    Delivers [1, 2, 3] [9] [.bytes 8, .want, .bytes 2, .bytes 1, .bytes 1]
        [.bytes 8, .bytes 1, .want, .want, .bytes 2, .bytes 1] ↔
      moved 8 (min 8 (moved 8 8 + 3 + 1)) = moved 8 8 ∧ 3 < 256 ^ moved 8 8 := by
  exact message_delivered_iff (by decide) ⟨by decide, by decide⟩ ⟨by decide, by decide⟩

/-- The first read returns three bytes of the length: the rest of the length is read as the payload. -/
theorem message_not_delivered :
    ¬ ∀ payload rest : List UInt8, payload.length < 2 ^ 31 → ∀ nw nr writes reads, Enough writes payload.length →
      Enough reads payload.length → Delivers payload rest (.bytes nw :: writes) (.bytes nr :: reads) := by
  intro hall
  obtain ⟨wire, writes', reads', hwrite, hread⟩ :=
    hall [1, 2] [] (by decide) 8 3 [.bytes 2, .bytes 2] [.bytes 2, .bytes 2] ⟨by decide, by decide⟩ ⟨by decide, by decide⟩
  obtain ⟨rfl, -⟩ : [2, 0, 0, 0, 0, 0, 0, 0, 1, 2] = wire ∧ [.bytes 2] = writes' := by
    have hsent : tls_write_to_session_peer [1, 2] [.bytes 8, .bytes 2, .bytes 2] =
        some (0, [2, 0, 0, 0, 0, 0, 0, 0, 1, 2], [.bytes 2]) := by
      decide
    simpa using hsent.symm.trans hwrite
  have hreceived : tls_read_from_session_peer [2, 0, 0, 0, 0, 0, 0, 0, 1, 2] [.bytes 3, .bytes 2, .bytes 2] =
      some (0, [0, 0], [0, 0, 0, 1, 2], [.bytes 2]) := by
    decide
  rw [List.append_nil] at hread
  cases hreceived.symm.trans hread

end Cassa.Tls
