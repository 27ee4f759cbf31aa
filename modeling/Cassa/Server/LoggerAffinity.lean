import Mathlib.Algebra.Ring.Nat
import Mathlib.Data.List.Nodup
import Mathlib.Data.List.Perm.Basic
import Cassa.SiloCC.LoggerProgress

/-!
# Placement of the threads

`LoggerAffinity::init` of `logger_affinity.hpp` and the loop of `main` that starts the threads.
The result `none` stands for an index past the end of `nodes_`, or for a list that is read or
popped while empty. `unsigned` has 32 bits.
-/

namespace Cassa.Server

/-- A CPU number is an `int`, made from an `unsigned`. -/
def toInt (i : Nat) : Int := (BitVec.ofNat 32 i).toInt

structure LoggerNode where
  logger_cpu_ : Int
  worker_cpu_ : List Int
  deriving DecidableEq, Repr

def LoggerNode.new : LoggerNode := ⟨0, []⟩

structure LoggerAffinity where
  nodes_ : List LoggerNode
  worker_num_ : Nat
  logger_num_ : Nat
  deriving DecidableEq, Repr

namespace LoggerAffinity

def new : LoggerAffinity := ⟨[], 0, 0⟩

/-- `nodes_[i].f()` -/
def atNode (f : LoggerNode → Option LoggerNode) (nodes_ : List LoggerNode) (i : Nat) : Option (List LoggerNode) := do
  let node ← nodes_[i]?
  let node ← f node
  some (nodes_.set i node)

/-- `worker_cpu_.emplace_back(i)` -/
def addWorker (i : Nat) (node : LoggerNode) : Option LoggerNode :=
  some { node with worker_cpu_ := node.worker_cpu_ ++ [toInt i] }

/-- The loop that deals the CPUs below `n` out to the nodes. -/
def spread (logger_num n : Nat) (nodes_ : List LoggerNode) : Option (List LoggerNode) :=
  (List.range n).foldlM (fun nodes_ i => atNode (addWorker i) nodes_ (i * logger_num % 2 ^ 32 / n)) nodes_

/-- `logger_cpu_ = worker_cpu_.back()` -/
def shareCpu (node : LoggerNode) : Option LoggerNode := do
  let cpu ← node.worker_cpu_.getLast?
  some { node with logger_cpu_ := cpu }

/-- The same, and `worker_cpu_.pop_back()`. -/
def takeCpu (node : LoggerNode) : Option LoggerNode := do
  let cpu ← node.worker_cpu_.getLast?
  some { node with logger_cpu_ := cpu, worker_cpu_ := node.worker_cpu_.dropLast }

def init (a : LoggerAffinity) (num_cpus worker_num logger_num : Nat) : Option LoggerAffinity := do
  let nodes_ := a.nodes_ ++ List.replicate logger_num .new
  let thread_num := (logger_num + worker_num) % 2 ^ 32
  if thread_num > num_cpus then
    let nodes_ ← spread logger_num worker_num nodes_
    let nodes_ ← (List.range logger_num).foldlM (atNode shareCpu) nodes_
    some ⟨nodes_, worker_num, logger_num⟩
  else
    let nodes_ ← spread logger_num thread_num nodes_
    let nodes_ ← (List.range logger_num).foldlM (atNode takeCpu) nodes_
    some ⟨nodes_, worker_num, logger_num⟩

example : (LoggerAffinity.new.init 8 3 2).map nodes_ = some [⟨2, [0, 1]⟩, ⟨4, [3]⟩] := by decide

example : (LoggerAffinity.new.init 4 3 2).map nodes_ = some [⟨1, [0, 1]⟩, ⟨2, [2]⟩] := by decide

/-- The numbers below `T` that go to place `b` of `L`. -/
def bucket (L T b : Nat) : List Nat := (List.range T).filter fun i => decide (i * L / T = b)

section

variable {L T b m i : Nat}

theorem mem_bucket : i ∈ bucket L T b ↔ i < T ∧ i * L / T = b := by
  rw [bucket, List.mem_filter, List.mem_range, decide_eq_true_iff]

theorem nodup_bucket : (bucket L T b).Nodup := List.nodup_range.filter _

/-- Every place gets `m` neighbours if there are `m` times as many numbers as places. -/
theorem le_length_bucket (hm : m * L ≤ T) (hb : b < L) : m ≤ (bucket L T b).length := by
  set i := (b * T + (L - 1)) / L with hi
  have hdiv : L * i + (b * T + (L - 1)) % L = b * T + (L - 1) := Nat.div_add_mod ..
  have hmod : (b * T + (L - 1)) % L < L := Nat.mod_lt _ (by omega)
  have hcomm : i * L = L * i := Nat.mul_comm ..
  have hsub : List.range' i m ⊆ bucket L T b := by
    intro j hj
    obtain ⟨hij, hlt⟩ := List.mem_range'_1.mp hj
    obtain ⟨d, rfl⟩ : ∃ d, j = i + d := ⟨j - i, by omega⟩
    have hd : (d + 1) * L ≤ m * L := Nat.mul_le_mul_right L (by omega)
    rw [Nat.add_mul, Nat.one_mul] at hd
    have hlow : b * T ≤ (i + d) * L := by
      rw [Nat.add_mul]
      omega
    have hhigh : (i + d) * L < (b + 1) * T := by
      rw [Nat.add_mul, Nat.add_mul, Nat.one_mul]
      omega
    refine mem_bucket.mpr ⟨?_, Nat.div_eq_of_lt_le hlow hhigh⟩
    have hall : (b + 1) * T ≤ L * T := Nat.mul_le_mul_right T hb
    rw [Nat.mul_comm L T] at hall
    exact Nat.lt_of_mul_lt_mul_right (Nat.lt_of_lt_of_le hhigh hall)
  have hle := (List.subperm_of_subset List.nodup_range' hsub).length_le
  rwa [List.length_range'] at hle

/-- No number is dealt out twice, also if a place gives some back. -/
theorem nodup_flatMap_bucket {f : Nat → List Nat} (hf : ∀ b, (f b).Sublist (bucket L T b)) :
    ((List.range L).flatMap f).Nodup := by
  rw [List.nodup_flatMap]
  refine ⟨fun b _ => nodup_bucket.sublist (hf b), ?_⟩
  refine List.nodup_range.imp ?_
  intro a b hab i ha hb
  have ha' := (mem_bucket.mp ((hf a).subset ha)).2
  have hb' := (mem_bucket.mp ((hf b).subset hb)).2
  exact hab (ha'.symm.trans hb')

/-- Every number is dealt out. -/
theorem perm_flatMap_bucket (hL : 1 ≤ L) : ((List.range L).flatMap (bucket L T)).Perm (List.range T) := by
  rw [List.perm_ext_iff_of_nodup (nodup_flatMap_bucket fun _ => List.Sublist.refl _) List.nodup_range]
  intro i
  rw [List.mem_flatMap, List.mem_range]
  constructor
  · rintro ⟨b, -, hi⟩
    exact (mem_bucket.mp hi).1
  · intro hi
    refine ⟨i * L / T, List.mem_range.mpr ?_, mem_bucket.mpr ⟨hi, rfl⟩⟩
    exact Nat.div_lt_of_lt_mul (Nat.mul_lt_mul_of_pos_right hi hL)

theorem sum_length_bucket (hL : 1 ≤ L) : ((List.range L).map fun b => (bucket L T b).length).sum = T := by
  rw [← List.length_flatMap, (perm_flatMap_bucket hL).length_eq, List.length_range]

end

theorem toInt_inj {i j : Nat} (hi : i < 2 ^ 32) (hj : j < 2 ^ 32) (he : toInt i = toInt j) : i = j := by
  have hnat := congrArg BitVec.toNat (BitVec.toInt_inj.mp he)
  rwa [BitVec.toNat_ofNat, BitVec.toNat_ofNat, Nat.mod_eq_of_lt hi, Nat.mod_eq_of_lt hj] at hnat

/-- The nodes after the first loop. -/
def dealt (L T : Nat) : List LoggerNode := (List.range L).map fun b => ⟨0, (bucket L T b).map toInt⟩

theorem atNode_some {f : LoggerNode → Option LoggerNode} {nodes_ : List LoggerNode} {i : Nat} {node node' : LoggerNode}
    (hi : nodes_[i]? = some node) (hf : f node = some node') : atNode f nodes_ i = some (nodes_.set i node') := by
  rw [atNode, hi]
  change (f node).bind _ = _
  rw [hf]
  rfl

theorem addWorker_eq (i : Nat) (node : LoggerNode) :
    addWorker i node = some { node with worker_cpu_ := node.worker_cpu_ ++ [toInt i] } := rfl

theorem spread_spec {L T : Nat} (hL : 1 ≤ L) (hfit : T * L < 2 ^ 32) :
    spread L T (List.replicate L .new) = some (dealt L T) := by
  have hturns : ∀ k ≤ T, (List.range k).foldlM (fun nodes_ i => atNode (addWorker i) nodes_ (i * L % 2 ^ 32 / T))
      (List.replicate L .new) = some ((List.range L).map fun b =>
        ⟨0, ((List.range k).filter fun i => decide (i * L / T = b)).map toInt⟩) := by
    intro k
    induction k with
    | zero =>
      intro _
      change some _ = some _
      simp [LoggerNode.new]
    | succ k ih =>
      intro hk
      have hmul : k * L < T * L := Nat.mul_lt_mul_of_pos_right hk hL
      have hindex : k * L % 2 ^ 32 / T = k * L / T := by rw [Nat.mod_eq_of_lt (Nat.lt_trans hmul hfit)]
      have hlt : k * L / T < L := Nat.div_lt_of_lt_mul hmul
      have hget : ∀ b < L, ((List.range L).map fun b => (⟨0, ((List.range k).filter
          fun i => decide (i * L / T = b)).map toInt⟩ : LoggerNode))[b]? =
            some ⟨0, ((List.range k).filter fun i => decide (i * L / T = b)).map toInt⟩ := by
        intro b hb
        rw [List.getElem?_map, List.getElem?_range hb]
        rfl
      rw [List.range_succ, List.foldlM_append, ih (by omega)]
      change atNode (addWorker k) _ (k * L % 2 ^ 32 / T) >>= some = _
      rw [hindex, atNode_some (hget _ hlt) (addWorker_eq k _)]
      change some _ = some _
      congr 1
      apply List.ext_getElem?
      intro b
      rw [List.getElem?_set, List.length_map, List.length_range, List.getElem?_map]
      by_cases hb : b < L
      · rw [List.getElem?_range hb]
        by_cases hbk : k * L / T = b
        · subst hbk
          simp [hlt, List.filter_append]
        · simp [hbk, List.filter_append, hb]
      · rw [List.getElem?_eq_none (l := List.range L) (by simpa using hb), if_neg (by omega)]
        simp [hb]
  exact hturns T (Nat.le_refl T)

/-- A loop over all the nodes. -/
theorem foldlM_atNode {f : LoggerNode → Option LoggerNode} {g : LoggerNode → LoggerNode} {nodes_ : List LoggerNode}
    (hf : ∀ node ∈ nodes_, f node = some (g node)) :
    (List.range nodes_.length).foldlM (atNode f) nodes_ = some (nodes_.map g) := by
  have hturns : ∀ k ≤ nodes_.length, (List.range k).foldlM (atNode f) nodes_ =
      some ((nodes_.take k).map g ++ nodes_.drop k) := by
    intro k
    induction k with
    | zero => exact fun _ => rfl
    | succ k ih =>
      intro hk
      have hlen : ((nodes_.take k).map g).length = k := by
        rw [List.length_map, List.length_take]
        omega
      rw [List.range_succ, List.foldlM_append, ih (by omega)]
      change atNode f ((nodes_.take k).map g ++ nodes_.drop k) k >>= some = _
      have hget : ((nodes_.take k).map g ++ nodes_.drop k)[k]? = some nodes_[k] := by
        rw [List.getElem?_append_right (by omega), hlen, Nat.sub_self, List.getElem?_drop, Nat.add_zero,
          List.getElem?_eq_getElem]
      rw [atNode_some hget (hf _ (List.getElem_mem _))]
      change some _ = some _
      rw [List.set_append_right _ _ (by omega), hlen, Nat.sub_self, List.drop_eq_getElem_cons (by omega),
        List.set_cons_zero, List.take_succ_eq_append_getElem (by omega), List.map_append, List.append_assoc]
      rfl
  have := hturns nodes_.length (Nat.le_refl _)
  rwa [List.take_length, List.drop_length, List.append_nil] at this

/-- Every logger has a worker, and every worker a CPU of its own. -/
structure Placed (worker_num logger_num : Nat) (nodes_ : List LoggerNode) : Prop where
  loggers : nodes_.length = logger_num
  workers : (nodes_.map fun node => node.worker_cpu_.length).sum = worker_num
  nonempty : ∀ node ∈ nodes_, node.worker_cpu_ ≠ []
  nodup : (nodes_.flatMap fun node => node.worker_cpu_).Nodup

section

variable {L T W : Nat}

theorem placed_of_buckets {cpu : Nat → Int} {f : Nat → List Nat} (hT : T < 2 ^ 32)
    (hf : ∀ b, (f b).Sublist (bucket L T b)) (hpos : ∀ b < L, f b ≠ [])
    (hsum : ((List.range L).map fun b => (f b).length).sum = W) :
    Placed W L ((List.range L).map fun b => ⟨cpu b, (f b).map toInt⟩) where
  loggers := by rw [List.length_map, List.length_range]
  workers := by
    rw [List.map_map, ← hsum]
    congr 1
    exact List.map_congr_left fun b _ => List.length_map toInt
  nonempty := by
    intro node hnode
    obtain ⟨b, hb, rfl⟩ := List.mem_map.mp hnode
    exact mt List.map_eq_nil_iff.mp (hpos b (List.mem_range.mp hb))
  nodup := by
    have hflat : (((List.range L).map fun b => (⟨cpu b, (f b).map toInt⟩ : LoggerNode)).flatMap
        fun node => node.worker_cpu_) = ((List.range L).flatMap f).map toInt := by
      rw [List.flatMap_map, List.map_flatMap]
    rw [hflat]
    refine (nodup_flatMap_bucket hf).map_on ?_
    intro i hi j hj he
    have hlt : ∀ k ∈ (List.range L).flatMap f, k < 2 ^ 32 := by
      intro k hk
      obtain ⟨b, -, hk⟩ := List.mem_flatMap.mp hk
      exact Nat.lt_trans (mem_bucket.mp ((hf b).subset hk)).1 hT
    exact toInt_inj (hlt i hi) (hlt j hj) he

/-- `back` on the dealt nodes. -/
theorem getLast?_dealt (hT : L ≤ T) {node : LoggerNode} (hnode : node ∈ dealt L T) :
    node.worker_cpu_.getLast? = some (node.worker_cpu_.getLastD 0) := by
  obtain ⟨b, hb, rfl⟩ := List.mem_map.mp hnode
  have hlen := le_length_bucket (m := 1) (by omega : 1 * L ≤ T) (List.mem_range.mp hb)
  cases hlist : (bucket L T b).map toInt with
  | nil =>
    rw [List.map_eq_nil_iff] at hlist
    rw [hlist] at hlen
    cases hlen
  | cons cpu rest => rfl

theorem init_spec (hL : 1 ≤ L) (hW : L ≤ W) (hfit : L * (W + L) < 2 ^ 32) (num_cpus : Nat) :
    ∃ nodes_, LoggerAffinity.new.init num_cpus W L = some ⟨nodes_, W, L⟩ ∧ Placed W L nodes_ := by
  have hle : W + L ≤ L * (W + L) := Nat.le_mul_of_pos_left _ hL
  have hthreads : (L + W) % 2 ^ 32 = L + W := Nat.mod_eq_of_lt (by omega)
  have hdist : (W + L) * L = L * (W + L) := Nat.mul_comm ..
  have hlen : ∀ T, (dealt L T).length = L := by
    intro T
    rw [dealt, List.length_map, List.length_range]
  unfold init
  rw [hthreads]
  let done : List LoggerNode → Option LoggerAffinity := fun nodes_ => some ⟨nodes_, W, L⟩
  change ∃ nodes_, (if L + W > num_cpus then
      (spread L W (List.replicate L .new)).bind fun nodes_ =>
        ((List.range L).foldlM (atNode shareCpu) nodes_).bind done
    else (spread L (L + W) (List.replicate L .new)).bind fun nodes_ =>
        ((List.range L).foldlM (atNode takeCpu) nodes_).bind done) = done nodes_ ∧ Placed W L nodes_
  by_cases hmany : L + W > num_cpus
  · have hWL : W * L ≤ (W + L) * L := Nat.mul_le_mul_right L (Nat.le_add_right W L)
    have hshare : ∀ node ∈ dealt L W, shareCpu node = some
        { node with logger_cpu_ := node.worker_cpu_.getLastD 0 } := by
      intro node hnode
      rw [shareCpu, getLast?_dealt hW hnode]
      rfl
    have hloop := foldlM_atNode hshare
    rw [hlen] at hloop
    rw [if_pos hmany, spread_spec hL (by omega), Option.bind_some, hloop]
    refine ⟨_, rfl, ?_⟩
    rw [dealt, List.map_map]
    refine placed_of_buckets (by omega) (fun b => List.Sublist.refl _) ?_ (sum_length_bucket hL)
    intro b hb he
    have := le_length_bucket (m := 1) (by omega : 1 * L ≤ W) hb
    rw [he] at this
    cases this
  · have htake : ∀ node ∈ dealt L (L + W), takeCpu node = some
        { node with logger_cpu_ := node.worker_cpu_.getLastD 0, worker_cpu_ := node.worker_cpu_.dropLast } := by
      intro node hnode
      rw [takeCpu, getLast?_dealt (by omega) hnode]
      rfl
    have hloop := foldlM_atNode htake
    rw [hlen] at hloop
    rw [if_neg hmany, spread_spec hL (by rw [Nat.add_comm L W]; omega), Option.bind_some, hloop]
    refine ⟨_, rfl, ?_⟩
    have htwo : ∀ b < L, 2 ≤ (bucket L (L + W) b).length := fun b hb => le_length_bucket (by omega) hb
    have hnodes : (dealt L (L + W)).map (fun node =>
        { node with logger_cpu_ := node.worker_cpu_.getLastD 0, worker_cpu_ := node.worker_cpu_.dropLast }) =
        (List.range L).map fun b =>
          ⟨((bucket L (L + W) b).map toInt).getLastD 0, ((bucket L (L + W) b).dropLast).map toInt⟩ := by
      rw [dealt, List.map_map]
      refine List.map_congr_left fun b _ => ?_
      rw [List.map_dropLast]
      rfl
    rw [hnodes]
    refine placed_of_buckets (by omega) (fun b => List.dropLast_sublist _) ?_ ?_
    · intro b hb he
      have := htwo b hb
      have hzero := congrArg List.length he
      rw [List.length_dropLast, List.length_nil] at hzero
      omega
    · have hall := sum_length_bucket (T := L + W) hL
      have hback : ∀ l : List Nat, (∀ b ∈ l, 1 ≤ (bucket L (L + W) b).length) →
          (l.map fun b => (bucket L (L + W) b).dropLast.length).sum + l.length =
            (l.map fun b => (bucket L (L + W) b).length).sum := by
        intro l
        induction l with
        | nil => exact fun _ => rfl
        | cons b l ih =>
          intro hl
          have hb := hl b List.mem_cons_self
          have := ih fun c hc => hl c (List.mem_cons_of_mem _ hc)
          simp only [List.map_cons, List.sum_cons, List.length_cons, List.length_dropLast] at this ⊢
          omega
      have := hback (List.range L) fun b hb => Nat.le_of_succ_le (htwo b (List.mem_range.mp hb))
      rw [hall, List.length_range] at this
      omega

end

end LoggerAffinity

/-- The threads that `main` has started, a worker with the ID of its logger, and the next IDs. -/
structure Threads where
  logger_threads : List Nat
  worker_threads : List (Nat × Nat)
  w_thid : Nat
  l_thid : Nat

def Threads.startWorker (t : Threads) (_wcpu : Int) : Threads :=
  { t with worker_threads := t.worker_threads ++ [(t.w_thid, t.l_thid)], w_thid := t.w_thid + 1 }

def Threads.startNode (t : Threads) (node : LoggerNode) : Threads :=
  let t := { t with logger_threads := t.logger_threads ++ [t.l_thid] }
  let t := node.worker_cpu_.foldl startWorker t
  { t with l_thid := t.l_thid + 1 }

def launch (nodes_ : List LoggerNode) : Threads := nodes_.foldl Threads.startNode ⟨[], [], 0, 0⟩

theorem startWorkers_eq (cpus : List Int) : ∀ t : Threads, cpus.foldl Threads.startWorker t =
    { t with
      worker_threads := t.worker_threads ++ (List.range' t.w_thid cpus.length).map fun w => (w, t.l_thid)
      w_thid := t.w_thid + cpus.length } := by
  induction cpus with
  | nil =>
    intro t
    simp
  | cons cpu cpus ih =>
    intro t
    rw [List.foldl_cons, ih, List.length_cons, List.range'_succ]
    simp [Threads.startWorker, Nat.add_assoc, Nat.add_comm 1]

/-- After some nodes the threads have the IDs from 0 on, and no logger is without a worker. -/
structure Threads.Started (t : Threads) : Prop where
  loggers : t.logger_threads = List.range t.l_thid
  workers : t.worker_threads.map Prod.fst = List.range t.w_thid
  inRange : ∀ w l, (w, l) ∈ t.worker_threads → l < t.l_thid
  worker : ∀ l < t.l_thid, ∃ w, (w, l) ∈ t.worker_threads

theorem Threads.Started.startNode {t : Threads} (ht : t.Started) {node : LoggerNode} (hne : node.worker_cpu_ ≠ []) :
    (t.startNode node).Started := by
  rw [Threads.startNode, startWorkers_eq]
  constructor
  · change t.logger_threads ++ [t.l_thid] = List.range (t.l_thid + 1)
    rw [ht.loggers, List.range_succ]
  · change (t.worker_threads ++ (List.range' t.w_thid node.worker_cpu_.length).map fun w => (w, t.l_thid)).map Prod.fst =
      List.range (t.w_thid + node.worker_cpu_.length)
    rw [List.map_append, ht.workers, List.map_map, List.range_eq_range', List.range_eq_range',
      ← List.range'_append_1, Nat.zero_add]
    congr 1
    exact List.map_id _
  · intro w l hw
    change l < t.l_thid + 1
    rcases List.mem_append.mp hw with hw | hw
    · have := ht.inRange w l hw
      omega
    · obtain ⟨w', -, he⟩ := List.mem_map.mp hw
      rw [← (Prod.mk.inj he).2]
      exact Nat.lt_succ_self _
  · intro l hl
    change l < t.l_thid + 1 at hl
    rcases Nat.lt_succ_iff_lt_or_eq.mp hl with hl | rfl
    · obtain ⟨w, hw⟩ := ht.worker l hl
      exact ⟨w, List.mem_append_left _ hw⟩
    · refine ⟨t.w_thid, List.mem_append_right _ (List.mem_map.mpr ⟨t.w_thid, ?_, rfl⟩)⟩
      exact List.mem_range'_1.mpr ⟨Nat.le_refl _, Nat.lt_add_of_pos_right (List.length_pos_of_ne_nil hne)⟩

theorem startNode_thids (t : Threads) (node : LoggerNode) :
    (t.startNode node).l_thid = t.l_thid + 1 ∧ (t.startNode node).w_thid = t.w_thid + node.worker_cpu_.length := by
  rw [Threads.startNode, startWorkers_eq]
  exact ⟨rfl, rfl⟩

theorem launch_spec {nodes_ : List LoggerNode} (hne : ∀ node ∈ nodes_, node.worker_cpu_ ≠ []) :
    (launch nodes_).Started ∧ (launch nodes_).l_thid = nodes_.length ∧
      (launch nodes_).w_thid = (nodes_.map fun node => node.worker_cpu_.length).sum := by
  have hrun : ∀ (nodes_ : List LoggerNode) (t : Threads), (∀ node ∈ nodes_, node.worker_cpu_ ≠ []) → t.Started →
      (nodes_.foldl Threads.startNode t).Started ∧
      (nodes_.foldl Threads.startNode t).l_thid = t.l_thid + nodes_.length ∧
      (nodes_.foldl Threads.startNode t).w_thid = t.w_thid + (nodes_.map fun node => node.worker_cpu_.length).sum := by
    intro nodes_
    induction nodes_ with
    | nil => exact fun t _ ht => ⟨ht, rfl, rfl⟩
    | cons node nodes_ ih =>
      intro t hne ht
      obtain ⟨hl, hw⟩ := startNode_thids t node
      obtain ⟨hstarted, hl', hw'⟩ := ih (t.startNode node) (fun m hm => hne m (List.mem_cons_of_mem _ hm))
        (ht.startNode (hne node List.mem_cons_self))
      rw [List.foldl_cons, List.length_cons, List.map_cons, List.sum_cons]
      exact ⟨hstarted, by omega, by omega⟩
  have hstart : (⟨[], [], 0, 0⟩ : Threads).Started := ⟨rfl, rfl, nofun, nofun⟩
  obtain ⟨hstarted, hl, hw⟩ := hrun nodes_ ⟨[], [], 0, 0⟩ hne hstart
  exact ⟨hstarted, hl.trans (Nat.zero_add _), hw.trans (Nat.zero_add _)⟩

open SiloCC.Durability

/-- Every worker has registered with the logger it was started with, in any order. -/
structure Registers (c : Config) (t : Threads) : Prop where
  workers : c.num_worker_threads = t.w_thid
  loggers : c.num_logger_threads = t.l_thid
  thid_vec_ : ∀ l w, w ∈ c.thid_vec_ l ↔ (w, l) ∈ t.worker_threads

/-- For any number of CPUs every logger gets a worker, and the workers the IDs from 0 on. -/
theorem thread_placement {worker_num logger_num : Nat} (hpos : 1 ≤ logger_num) (hle : logger_num ≤ worker_num)
    (hfit : logger_num * (worker_num + logger_num) < 2 ^ 32) (num_cpus : Nat) :
    ∃ nodes_, LoggerAffinity.new.init num_cpus worker_num logger_num = some ⟨nodes_, worker_num, logger_num⟩ ∧
      LoggerAffinity.Placed worker_num logger_num nodes_ ∧
      (launch nodes_).worker_threads.map Prod.fst = List.range worker_num ∧
      (launch nodes_).logger_threads = List.range logger_num ∧
      ∀ (K β D : Type) (c : Config) (h : SiloCC.Hash K β D), Registers c (launch nodes_) → ∀ l < logger_num,
        ∀ s : State K β D, ReadyToAdvance c s l →
          ∃ t, Leads c h l s t ∧ (s.loggers l).ThLocalDurableEpoch < (t.loggers l).ThLocalDurableEpoch := by
  obtain ⟨nodes_, hinit, hplaced⟩ := LoggerAffinity.init_spec hpos hle hfit num_cpus
  obtain ⟨hstarted, hl, hw⟩ := launch_spec hplaced.nonempty
  rw [hplaced.loggers] at hl
  rw [hplaced.workers] at hw
  refine ⟨nodes_, hinit, hplaced, hw ▸ hstarted.workers, hl ▸ hstarted.loggers, ?_⟩
  intro K β D c h hc l hlt s hready
  obtain ⟨w, hworker⟩ := hstarted.worker l (hl ▸ hlt)
  have hne : c.thid_vec_ l ≠ [] := List.ne_nil_of_mem ((hc.thid_vec_ l w).mpr hworker)
  exact logger_advances (by rw [hc.loggers, hl]; exact hlt) hne hready

theorem thread_placement_three :
    ∃ nodes_, LoggerAffinity.new.init 4 3 2 = some ⟨nodes_, 3, 2⟩ ∧
      LoggerAffinity.Placed 3 2 nodes_ ∧ (launch nodes_).worker_threads.map Prod.fst = List.range 3 ∧
      (launch nodes_).logger_threads = List.range 2 ∧
      ∀ (K β D : Type) (c : Config) (h : SiloCC.Hash K β D), Registers c (launch nodes_) → ∀ l < 2,
        ∀ s : State K β D, ReadyToAdvance c s l →
          ∃ t, Leads c h l s t ∧ (s.loggers l).ThLocalDurableEpoch < (t.loggers l).ThLocalDurableEpoch :=
  thread_placement (by decide) (by decide) (by decide) 4

end Cassa.Server
