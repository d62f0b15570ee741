import Mathlib.Order.Bounds.Basic
import ShardingSim.Common

/-! The counters of `common.c` for benchmarks. After any calls they sum up those since the last `benchmark_init` or
`benchmark_reset`, modulo 2^64, with the least and the greatest latency (`benchmark_summary`). -/
namespace ShardingSim
set_option autoImplicit false

structure BenchmarkStats where
  txCreatedCount : UInt64
  txConfirmedCount : UInt64
  blocksCreated : UInt64
  totalTxLatencyMs : UInt64
  minTxLatencyMs : UInt64
  maxTxLatencyMs : UInt64
  startTimeMs : UInt64
  lastBlockTimeMs : UInt64
  activeValidators : UInt32
  totalValidatorWorkMs : UInt64

def uint64Max : UInt64 := 18446744073709551615

/-- `benchmark_init`; `now` is what `get_current_time_ms` returns. -/
def benchmarkInit (now : UInt64) : BenchmarkStats where
  txCreatedCount := 0
  txConfirmedCount := 0
  blocksCreated := 0
  totalTxLatencyMs := 0
  minTxLatencyMs := uint64Max
  maxTxLatencyMs := 0
  startTimeMs := now
  lastBlockTimeMs := 0
  activeValidators := 0
  totalValidatorWorkMs := 0

def benchmarkTxCreated (s : BenchmarkStats) : BenchmarkStats := { s with txCreatedCount := s.txCreatedCount + 1 }

def benchmarkTxConfirmed (s : BenchmarkStats) (latencyMs : UInt64) : BenchmarkStats :=
  { s with
    txConfirmedCount := s.txConfirmedCount + 1
    totalTxLatencyMs := s.totalTxLatencyMs + latencyMs
    minTxLatencyMs := if latencyMs < s.minTxLatencyMs then latencyMs else s.minTxLatencyMs
    maxTxLatencyMs := if latencyMs > s.maxTxLatencyMs then latencyMs else s.maxTxLatencyMs }

def benchmarkBlockCreated (s : BenchmarkStats) (now : UInt64) : BenchmarkStats :=
  { s with
    blocksCreated := s.blocksCreated + 1
    lastBlockTimeMs := now }

def benchmarkValidatorWork (s : BenchmarkStats) (workMs : UInt64) : BenchmarkStats :=
  { s with totalValidatorWorkMs := s.totalValidatorWorkMs + workMs }

/-- A call, with the time where it reads the clock. `init` is also `benchmark_reset`, which calls it. -/
inductive BenchmarkCall where
  | init (now : UInt64)
  | txCreated
  | txConfirmed (latencyMs : UInt64)
  | blockCreated (now : UInt64)
  | validatorWork (workMs : UInt64)

def benchmarkStep (s : BenchmarkStats) : BenchmarkCall → BenchmarkStats
  | .init now => benchmarkInit now
  | .txCreated => benchmarkTxCreated s
  | .txConfirmed latencyMs => benchmarkTxConfirmed s latencyMs
  | .blockCreated now => benchmarkBlockCreated s now
  | .validatorWork workMs => benchmarkValidatorWork s workMs

/-! ## What was called -/

/-- The calls of each kind, with their arguments in order. -/
structure Tally where
  created : ℕ
  latencies : List ℕ
  blockTimes : List UInt64
  works : List ℕ

def Tally.empty : Tally := ⟨0, [], [], []⟩

/-- An initialisation forgets the calls before it. -/
def Tally.add (t : Tally) : BenchmarkCall → Tally
  | .init _ => Tally.empty
  | .txCreated => { t with created := t.created + 1 }
  | .txConfirmed latencyMs => { t with latencies := t.latencies ++ [latencyMs.toNat] }
  | .blockCreated now => { t with blockTimes := t.blockTimes ++ [now] }
  | .validatorWork workMs => { t with works := t.works ++ [workMs.toNat] }

def tally (calls : List BenchmarkCall) : Tally := calls.foldl Tally.add Tally.empty

def startTime (now : UInt64) : BenchmarkCall → UInt64
  | .init now' => now'
  | _ => now

/-- The counters after the calls of a tally, which came after an initialisation at `now`. -/
structure Summarises (now : UInt64) (t : Tally) (s : BenchmarkStats) : Prop where
  created : s.txCreatedCount = UInt64.ofNat t.created
  confirmed : s.txConfirmedCount = UInt64.ofNat t.latencies.length
  total : s.totalTxLatencyMs = UInt64.ofNat t.latencies.sum
  least : IsLeast {n | n ∈ (2 ^ 64 - 1) :: t.latencies} s.minTxLatencyMs.toNat
  greatest : IsGreatest {n | n ∈ 0 :: t.latencies} s.maxTxLatencyMs.toNat
  blocks : s.blocksCreated = UInt64.ofNat t.blockTimes.length
  lastBlock : s.lastBlockTimeMs = t.blockTimes.getLastD 0
  work : s.totalValidatorWorkMs = UInt64.ofNat t.works.sum
  start : s.startTimeMs = now

section Summary
variable {now : UInt64} {t : Tally} {s : BenchmarkStats}

theorem summarises_init (now : UInt64) : Summarises now Tally.empty (benchmarkInit now) where
  created := rfl
  confirmed := rfl
  total := rfl
  least := by simp [IsLeast, lowerBounds, benchmarkInit, uint64Max, Tally.empty]
  greatest := by simp [IsGreatest, upperBounds, benchmarkInit, Tally.empty]
  blocks := rfl
  lastBlock := rfl
  work := rfl
  start := rfl

theorem ofNat_sum_concat (l : List ℕ) (x : UInt64) :
    UInt64.ofNat (l ++ [x.toNat]).sum = UInt64.ofNat l.sum + x := by
  rw [List.sum_append, List.sum_singleton, UInt64.ofNat_add, UInt64.ofNat_toNat]

theorem ofNat_length_concat {α : Type} (l : List α) (x : α) :
    UInt64.ofNat (l ++ [x]).length = UInt64.ofNat l.length + 1 := by
  rw [List.length_append, UInt64.ofNat_add]
  rfl

theorem setOf_mem_concat (a : ℕ) (l : List ℕ) (x : ℕ) : {n | n ∈ a :: (l ++ [x])} = insert x {n | n ∈ a :: l} := by
  ext n
  simp only [Set.mem_ofPred_eq, Set.mem_insert_iff, List.mem_cons, List.mem_append, List.not_mem_nil, or_false]
  tauto

theorem minTxLatencyMs_txConfirmed (s : BenchmarkStats) (latencyMs : UInt64) :
    (benchmarkTxConfirmed s latencyMs).minTxLatencyMs.toNat = min latencyMs.toNat s.minTxLatencyMs.toNat := by
  show (if latencyMs < s.minTxLatencyMs then latencyMs else s.minTxLatencyMs).toNat = _
  split_ifs with hlt
  · exact (min_eq_left (UInt64.lt_iff_toNat_lt.mp hlt).le).symm
  · exact (min_eq_right (not_lt.mp fun hn => hlt (UInt64.lt_iff_toNat_lt.mpr hn))).symm

theorem maxTxLatencyMs_txConfirmed (s : BenchmarkStats) (latencyMs : UInt64) :
    (benchmarkTxConfirmed s latencyMs).maxTxLatencyMs.toNat = max latencyMs.toNat s.maxTxLatencyMs.toNat := by
  show (if latencyMs > s.maxTxLatencyMs then latencyMs else s.maxTxLatencyMs).toNat = _
  split_ifs with hlt
  · exact (max_eq_left (UInt64.lt_iff_toNat_lt.mp hlt).le).symm
  · exact (max_eq_right (not_lt.mp fun hn => hlt (UInt64.lt_iff_toNat_lt.mpr hn))).symm

/-- One call more. -/
theorem summarises_step (h : Summarises now t s) (c : BenchmarkCall) :
    Summarises (startTime now c) (t.add c) (benchmarkStep s c) := by
  cases c with
  | init now' => exact summarises_init now'
  | txCreated =>
    refine { h with created := ?_ }
    show s.txCreatedCount + 1 = UInt64.ofNat (t.created + 1)
    rw [UInt64.ofNat_add, h.created]
    rfl
  | txConfirmed latencyMs =>
    refine { h with confirmed := ?_, total := ?_, least := ?_, greatest := ?_ }
    · show s.txConfirmedCount + 1 = UInt64.ofNat (t.latencies ++ [latencyMs.toNat]).length
      rw [ofNat_length_concat, h.confirmed]
    · show s.totalTxLatencyMs + latencyMs = UInt64.ofNat (t.latencies ++ [latencyMs.toNat]).sum
      rw [ofNat_sum_concat, h.total]
    · have hleast := h.least.insert latencyMs.toNat
      rw [← setOf_mem_concat, ← minTxLatencyMs_txConfirmed] at hleast
      exact hleast
    · have hgreatest := h.greatest.insert latencyMs.toNat
      rw [← setOf_mem_concat, ← maxTxLatencyMs_txConfirmed] at hgreatest
      exact hgreatest
  | blockCreated now' =>
    refine { h with blocks := ?_, lastBlock := ?_ }
    · show s.blocksCreated + 1 = UInt64.ofNat (t.blockTimes ++ [now']).length
      rw [ofNat_length_concat, h.blocks]
    · show now' = (t.blockTimes ++ [now']).getLastD 0
      rw [List.getLastD_concat]
  | validatorWork workMs =>
    refine { h with work := ?_ }
    show s.totalValidatorWorkMs + workMs = UInt64.ofNat (t.works ++ [workMs.toNat]).sum
    rw [ofNat_sum_concat, h.work]

theorem summarises_foldl (h : Summarises now t s) (calls : List BenchmarkCall) :
    Summarises (calls.foldl startTime now) (calls.foldl Tally.add t) (calls.foldl benchmarkStep s) := by
  induction calls generalizing now t s with
  | nil => exact h
  | cons c calls ih => exact ih (summarises_step h c)

end Summary

/-! ## The report -/

/-- The integers of `benchmark_report`. -/
structure BenchmarkReport where
  txCreated : UInt64
  txConfirmed : UInt64
  minLatency : UInt64
  maxLatency : UInt64
  blocksCreated : UInt64
  validatorWork : UInt64

def benchmarkReport (s : BenchmarkStats) : BenchmarkReport where
  txCreated := s.txCreatedCount
  txConfirmed := s.txConfirmedCount
  minLatency := if s.minTxLatencyMs = uint64Max then 0 else s.minTxLatencyMs
  maxLatency := s.maxTxLatencyMs
  blocksCreated := s.blocksCreated
  validatorWork := s.totalValidatorWorkMs

/-- The report is about the calls: its latencies bound all that were measured and are among them, and the average lies
between, as long as neither sum is too large for its type. -/
structure Reports (t : Tally) (s : BenchmarkStats) : Prop where
  bounds : ∀ n ∈ t.latencies, (benchmarkReport s).minLatency.toNat ≤ n ∧ n ≤ (benchmarkReport s).maxLatency.toNat
  least : t.latencies ≠ [] → (benchmarkReport s).minLatency.toNat ∈ t.latencies ∨ ∀ n ∈ t.latencies, n = 2 ^ 64 - 1
  greatest : t.latencies ≠ [] → (benchmarkReport s).maxLatency.toNat ∈ t.latencies
  average : t.latencies.length < 2 ^ 64 → t.latencies.sum < 2 ^ 64 →
    (benchmarkReport s).txConfirmed.toNat * (benchmarkReport s).minLatency.toNat ≤ s.totalTxLatencyMs.toNat ∧
      s.totalTxLatencyMs.toNat ≤ (benchmarkReport s).txConfirmed.toNat * (benchmarkReport s).maxLatency.toNat

theorem uint64Max_toNat : uint64Max.toNat = 2 ^ 64 - 1 := rfl

theorem minLatency_le (s : BenchmarkStats) : (benchmarkReport s).minLatency.toNat ≤ s.minTxLatencyMs.toNat := by
  show (if s.minTxLatencyMs = uint64Max then (0 : UInt64) else s.minTxLatencyMs).toNat ≤ _
  split_ifs
  · exact Nat.zero_le _
  · exact le_rfl

theorem Summarises.reports {now : UInt64} {t : Tally} {s : BenchmarkStats} (h : Summarises now t s) : Reports t s := by
  obtain ⟨hleast, hlower⟩ := h.least
  obtain ⟨hgreatest, hupper⟩ := h.greatest
  have hlow : ∀ n ∈ t.latencies, s.minTxLatencyMs.toNat ≤ n := fun n hn => hlower (List.mem_cons_of_mem _ hn)
  have hhigh : ∀ n ∈ t.latencies, n ≤ s.maxTxLatencyMs.toNat := fun n hn => hupper (List.mem_cons_of_mem _ hn)
  have hbounds : ∀ n ∈ t.latencies,
      (benchmarkReport s).minLatency.toNat ≤ n ∧ n ≤ (benchmarkReport s).maxLatency.toNat :=
    fun n hn => ⟨(minLatency_le s).trans (hlow n hn), hhigh n hn⟩
  refine ⟨hbounds, fun hne => ?_, fun hne => ?_, fun hlength hsum => ?_⟩
  · by_cases hmax : s.minTxLatencyMs = uint64Max
    · -- only latencies as large as the mark for none
      refine Or.inr fun n hn => ?_
      have hle := hlow n hn
      have hlt := (hhigh n hn).trans_lt s.maxTxLatencyMs.toNat_lt
      rw [hmax, uint64Max_toNat] at hle
      omega
    · have hreport : (benchmarkReport s).minLatency = s.minTxLatencyMs := if_neg hmax
      rw [hreport]
      refine Or.inl ((List.mem_cons.mp hleast).resolve_left fun heq => hmax ?_)
      exact UInt64.toNat_inj.mp heq
  · rcases List.mem_cons.mp hgreatest with hzero | hmem
    · obtain ⟨n, hn⟩ := List.exists_mem_of_ne_nil _ hne
      have hle := hhigh n hn
      have hn0 : n = s.maxTxLatencyMs.toNat := by omega
      exact hn0 ▸ hn
    · exact hmem
  · have hconfirmed : (benchmarkReport s).txConfirmed.toNat = t.latencies.length := by
      show s.txConfirmedCount.toNat = _
      rw [h.confirmed, UInt64.toNat_ofNat', Nat.mod_eq_of_lt hlength]
    have htotal : s.totalTxLatencyMs.toNat = t.latencies.sum := by
      rw [h.total, UInt64.toNat_ofNat', Nat.mod_eq_of_lt hsum]
    rw [hconfirmed, htotal]
    exact ⟨List.card_nsmul_le_sum _ _ fun n hn => (hbounds n hn).1,
      List.sum_le_card_nsmul _ _ fun n hn => (hbounds n hn).2⟩

/-- **What the counters tell.** -/
theorem benchmark_summary (s : BenchmarkStats) (before after : List BenchmarkCall) (now : UInt64) :
    Summarises (after.foldl startTime now) (tally after)
        ((before ++ .init now :: after).foldl benchmarkStep s) ∧
      Reports (tally after) ((before ++ .init now :: after).foldl benchmarkStep s) := by
  have hinit : (before ++ .init now :: after).foldl benchmarkStep s =
      after.foldl benchmarkStep (benchmarkInit now) := by
    rw [List.foldl_append, List.foldl_cons]
    rfl
  have h := summarises_foldl (summarises_init now) after
  rw [hinit]
  exact ⟨h, h.reports⟩

end ShardingSim
