import ShardingSim.Library.Fields
import ShardingSim.Library.OptionLoop
import ShardingSim.Schedule

/-! The command lines of both programs. Whatever the arguments are, each option has its last value, or its default,
and the options can be written as arguments again that mean the same (`generator_arguments`, `receiver_arguments`). -/
namespace ShardingSim
open Decimal Fields OptionLoop
set_option autoImplicit false

/-! ## Numbers -/

theorem strtol_decimalInt {z : ℤ} (h : IsInt64 z) : strtol (decimalInt z) = z := by
  rw [strtol, scanInteger_decimalInt, min_eq_left h.2, max_eq_right h.1]

theorem atoi_decimalInt {z : ℤ} (h : IsInt z) : atoi (decimalInt z) = z := by
  obtain ⟨hlow, hhigh⟩ := h
  rw [atoi, strtol_decimalInt ⟨by omega, by omega⟩]
  exact Int.bmod_eq_of_le (by omega) (by omega)

theorem atoll_decimalInt {z : ℤ} (h : IsInt64 z) : atoll (decimalInt z) = z := strtol_decimalInt h

/-- An `unsigned int` is read by `atoi` and cast back. -/
theorem ofInt_atoi_decimalInt (n : UInt32) : UInt32.ofInt (atoi (decimalInt n.toNat)) = n := by
  have hlt := n.toNat_lt
  rw [atoi, strtol_decimalInt ⟨by omega, by omega⟩]
  have hcast : (n.toNat : ℤ).bmod (2 ^ 32) % 2 ^ 32 = n.toNat := by
    have hmod := Int.bmod_emod (x := n.toNat) (m := 2 ^ 32)
    omega
  apply UInt32.toNat_inj.mp
  rw [UInt32.ofInt, hcast, Int.toNat_natCast, UInt32.toNat_ofNat', Nat.mod_eq_of_lt hlt]

/-! ## The generator -/

inductive Setting where
  | connect (addr : List UInt8)
  | inProcess
  | threads (value : List UInt8)
  | batch (value : List UInt8)
  | sleepMs (value : List UInt8)
  | baseNonce (value : List UInt8)

def generatorKind (arg : List UInt8) : Option (Kind (List UInt8) Setting) :=
  if arg = ascii "--connect" then some (.value .connect)
  else if arg = ascii "--in-process" then some (.flag .inProcess)
  else if arg = ascii "--threads" then some (.value .threads)
  else if arg = ascii "--batch" then some (.value .batch)
  else if arg = ascii "--sleep-ms" then some (.value .sleepMs)
  else if arg = ascii "--base-nonce" then some (.value .baseNonce)
  else none

namespace Setting

def apply (o : Options) : Setting → Options
  | connect addr => { o with connectAddr := addr }
  | inProcess => { o with useZmq := false }
  | threads value => { o with numThreads := atoi value }
  | batch value => { o with batchSize := atoi value }
  | sleepMs value => { o with sleepMs := UInt32.ofInt (atoi value) }
  | baseNonce value => { o with baseNonce := atoll value }

def args : Setting → List (List UInt8)
  | connect addr => [ascii "--connect", addr]
  | inProcess => [ascii "--in-process"]
  | threads value => [ascii "--threads", value]
  | batch value => [ascii "--batch", value]
  | sleepMs value => [ascii "--sleep-ms", value]
  | baseNonce value => [ascii "--base-nonce", value]

/-! What a setting gives to each field. -/

def connectAddr? : Setting → Option (List UInt8)
  | connect addr => some addr
  | _ => none

def useZmq? : Setting → Option Bool
  | inProcess => some false
  | _ => none

def numThreads? : Setting → Option ℤ
  | threads value => some (atoi value)
  | _ => none

def batchSize? : Setting → Option ℤ
  | batch value => some (atoi value)
  | _ => none

def sleepMs? : Setting → Option UInt32
  | sleepMs value => some (UInt32.ofInt (atoi value))
  | _ => none

def baseNonce? : Setting → Option ℤ
  | baseNonce value => some (atoll value)
  | _ => none

theorem writes (s : Setting) : Writes generatorKind s s.args := by
  cases s with
  | connect addr => exact Writes.value rfl addr
  | inProcess => exact Writes.flag rfl
  | threads value => exact Writes.value rfl value
  | batch value => exact Writes.value rfl value
  | sleepMs value => exact Writes.value rfl value
  | baseNonce value => exact Writes.value rfl value

end Setting

theorem parseOptions_eq (o : Options) (args : List (List UInt8)) :
    parseOptions o args = (read generatorKind args).foldl Setting.apply o := by
  fun_induction parseOptions o args with
  | case1 o => rfl
  | case2 o =>
    rw [read_flag (show generatorKind (ascii "--in-process") = some (.flag .inProcess) from rfl)]
    rfl
  | case3 o arg harg =>
    refine (congrArg (List.foldl Setting.apply o) (read_last fun s hflag => harg ?_)).symm
    unfold generatorKind at hflag
    split_ifs at hflag with h1 h2 <;> first | exact h2 | cases hflag
  | case4 o value rest ih =>
    rw [ih, read_value (show generatorKind (ascii "--connect") = some (.value .connect) from rfl)]
    rfl
  | case5 o value rest h1 ih =>
    rw [ih, read_flag (show generatorKind (ascii "--in-process") = some (.flag .inProcess) from rfl)]
    rfl
  | case6 o value rest h1 h2 ih =>
    rw [ih, read_value (show generatorKind (ascii "--threads") = some (.value .threads) from rfl)]
    rfl
  | case7 o value rest h1 h2 h3 ih =>
    rw [ih, read_value (show generatorKind (ascii "--batch") = some (.value .batch) from rfl)]
    rfl
  | case8 o value rest h1 h2 h3 h4 ih =>
    rw [ih, read_value (show generatorKind (ascii "--sleep-ms") = some (.value .sleepMs) from rfl)]
    rfl
  | case9 o value rest h1 h2 h3 h4 h5 ih =>
    rw [ih, read_value (show generatorKind (ascii "--base-nonce") = some (.value .baseNonce) from rfl)]
    rfl
  | case10 o arg value rest h1 h2 h3 h4 h5 h6 ih =>
    have hother : generatorKind arg = none := by simp [generatorKind, h1, h2, h3, h4, h5, h6]
    rw [ih, read_other hother]

/-- What each field of the options is: the last value given to it, cut to its range, or the default. -/
def optionsOf (argv : List (List UInt8)) : Options :=
  let settings := read generatorKind (argv.drop 5)
  { initialOptions argv with
    connectAddr := (settings.filterMap Setting.connectAddr?).getLastD (ascii "tcp://localhost:5557")
    useZmq := (settings.filterMap Setting.useZmq?).getLastD true
    numThreads := clampThreads ((settings.filterMap Setting.numThreads?).getLastD 48)
    batchSize := clampBatchSize ((settings.filterMap Setting.batchSize?).getLastD 64)
    sleepMs := (settings.filterMap Setting.sleepMs?).getLastD 0
    baseNonce := (settings.filterMap Setting.baseNonce?).getLastD 0 }

theorem options_eq_optionsOf (argv : List (List UInt8)) : options argv = optionsOf argv := by
  rw [options, optionsOf, parseOptions_eq]
  generalize read generatorKind (argv.drop 5) = settings
  have hunset : ∀ {β : Type} (get : Options → β), (∀ o s, get (Setting.apply o s) = get o) →
      get (settings.foldl Setting.apply (initialOptions argv)) = get (initialOptions argv) :=
    fun get h => get_foldl_of_unset get h _ settings
  have hset : ∀ {β : Type} (get : Options → β) (sets : Setting → Option β),
      (∀ o s, get (Setting.apply o s) = (sets s).getD (get o)) →
      get (settings.foldl Setting.apply (initialOptions argv)) =
        (settings.filterMap sets).getLastD (get (initialOptions argv)) :=
    fun get sets h => get_foldl get sets h _ settings
  rw [hunset Options.fromName fun o s => by cases s <;> rfl, hunset Options.toName fun o s => by cases s <;> rfl,
    hunset Options.amount fun o s => by cases s <;> rfl, hunset Options.totalCount fun o s => by cases s <;> rfl,
    hset Options.connectAddr Setting.connectAddr? fun o s => by cases s <;> rfl,
    hset Options.useZmq Setting.useZmq? fun o s => by cases s <;> rfl,
    hset Options.numThreads Setting.numThreads? fun o s => by cases s <;> rfl,
    hset Options.batchSize Setting.batchSize? fun o s => by cases s <;> rfl,
    hset Options.sleepMs Setting.sleepMs? fun o s => by cases s <;> rfl,
    hset Options.baseNonce Setting.baseNonce? fun o s => by cases s <;> rfl]
  rfl

/-! ### Canonical arguments -/

def valueSettings (o : Options) : List Setting :=
  [.connect o.connectAddr, .threads (decimalInt o.numThreads), .batch (decimalInt o.batchSize),
    .sleepMs (decimalInt o.sleepMs.toNat), .baseNonce (decimalInt o.baseNonce)]

def canonicalSettings (o : Options) : List Setting :=
  valueSettings o ++ if o.useZmq then [] else [.inProcess]

/-- Arguments that mean `o`, after the name of the program. -/
def canonicalArgs (o : Options) : List (List UInt8) :=
  [ascii "generator", o.fromName, o.toName, decimal o.amount.toNat, decimalInt o.totalCount] ++
    (canonicalSettings o).flatMap Setting.args

theorem clampBatchSize_of_mem {n : ℤ} (h : 1 ≤ n ∧ n ≤ 256) : clampBatchSize n = n := by
  unfold clampBatchSize
  dsimp only
  split_ifs <;> omega

theorem clampThreads_of_mem {n : ℤ} (h : 1 ≤ n ∧ n ≤ 64) : clampThreads n = n := by
  unfold clampThreads
  dsimp only
  split_ifs <;> omega

theorem options_canonicalArgs {o : Options} (hfits : FitsTypes o) (hbatch : 1 ≤ o.batchSize ∧ o.batchSize ≤ 256)
    (hthreads : 1 ≤ o.numThreads ∧ o.numThreads ≤ 64) : options (canonicalArgs o) = o := by
  have hread : read generatorKind ((canonicalArgs o).drop 5) = canonicalSettings o :=
    read_flatMap Setting.writes (canonicalSettings o)
  have hfield : ∀ {β : Type} (sets : Setting → Option β), sets .inProcess = none →
      (canonicalSettings o).filterMap sets = (valueSettings o).filterMap sets := by
    intro β sets hnone
    rw [canonicalSettings, List.filterMap_append]
    cases o.useZmq <;> simp [hnone]
  have hconnect : (canonicalSettings o).filterMap Setting.connectAddr? = [o.connectAddr] :=
    hfield Setting.connectAddr? rfl
  have hnum : (canonicalSettings o).filterMap Setting.numThreads? = [atoi (decimalInt o.numThreads)] :=
    hfield Setting.numThreads? rfl
  have hsize : (canonicalSettings o).filterMap Setting.batchSize? = [atoi (decimalInt o.batchSize)] :=
    hfield Setting.batchSize? rfl
  have hsleep : (canonicalSettings o).filterMap Setting.sleepMs? =
      [UInt32.ofInt (atoi (decimalInt o.sleepMs.toNat))] := hfield Setting.sleepMs? rfl
  have hnonce : (canonicalSettings o).filterMap Setting.baseNonce? = [atoll (decimalInt o.baseNonce)] :=
    hfield Setting.baseNonce? rfl
  have hzmq : ((canonicalSettings o).filterMap Setting.useZmq?).getLastD true = o.useZmq := by
    unfold canonicalSettings
    cases o.useZmq <;> rfl
  have hamount : strtoull (decimal o.amount.toNat) = o.amount := by
    have hdecimal := @strtoull_decimal o.amount [] (by simp)
    rwa [List.append_nil] at hdecimal
  have hinitial : initialOptions (canonicalArgs o) =
      { fromName := o.fromName
        toName := o.toName
        amount := strtoull (decimal o.amount.toNat)
        totalCount := atoi (decimalInt o.totalCount)
        numThreads := 48
        batchSize := 64
        baseNonce := 0
        connectAddr := ascii "tcp://localhost:5557"
        useZmq := true
        sleepMs := 0 } := rfl
  have hintThreads : IsInt o.numThreads := ⟨by omega, by omega⟩
  have hintBatch : IsInt o.batchSize := ⟨by omega, by omega⟩
  rw [options_eq_optionsOf, optionsOf, hread, hconnect, hzmq, hnum, hsize, hsleep, hnonce, hinitial, hamount,
    atoi_decimalInt hfits.1, atoi_decimalInt hintThreads, atoi_decimalInt hintBatch, ofInt_atoi_decimalInt,
    atoll_decimalInt hfits.2]
  show ({ o with numThreads := clampThreads o.numThreads, batchSize := clampBatchSize o.batchSize } : Options) = o
  rw [clampThreads_of_mem hthreads, clampBatchSize_of_mem hbatch]

/-- **The arguments of the generator.** Every option has its last value or its default, and the options are those of
canonical arguments. -/
theorem generator_arguments (argv : List (List UInt8)) :
    options argv = optionsOf argv ∧ options (canonicalArgs (options argv)) = options argv :=
  ⟨options_eq_optionsOf argv,
    options_canonicalArgs (fitsTypes_options argv) (clampBatchSize_bounds _) (clampThreads_bounds _)⟩

/-! ## The receiver -/

structure ReceiverOptions where
  bindAddr : List UInt8
  sleepMs : UInt32
  verify : Bool

/-- The option loop over the arguments from the first on. -/
def parseReceiverOptions (o : ReceiverOptions) : List (List UInt8) → ReceiverOptions
  | [] => o
  | [arg] => if arg = ascii "--verify" then { o with verify := true } else o
  | arg :: value :: rest =>
    if arg = ascii "--bind" then parseReceiverOptions { o with bindAddr := value } rest
    else if arg = ascii "--sleep-ms" then parseReceiverOptions { o with sleepMs := UInt32.ofInt (atoi value) } rest
    else if arg = ascii "--verify" then parseReceiverOptions { o with verify := true } (value :: rest)
    else parseReceiverOptions o (value :: rest)

def receiverDefaults : ReceiverOptions where
  bindAddr := ascii "tcp://*:5557"
  sleepMs := 0
  verify := false

def receiverOptions (argv : List (List UInt8)) : ReceiverOptions :=
  parseReceiverOptions receiverDefaults (argv.drop 1)

inductive ReceiverSetting where
  | bind (addr : List UInt8)
  | sleepMs (value : List UInt8)
  | verify

def receiverKind (arg : List UInt8) : Option (Kind (List UInt8) ReceiverSetting) :=
  if arg = ascii "--bind" then some (.value .bind)
  else if arg = ascii "--sleep-ms" then some (.value .sleepMs)
  else if arg = ascii "--verify" then some (.flag .verify)
  else none

namespace ReceiverSetting

def apply (o : ReceiverOptions) : ReceiverSetting → ReceiverOptions
  | bind addr => { o with bindAddr := addr }
  | sleepMs value => { o with sleepMs := UInt32.ofInt (atoi value) }
  | verify => { o with verify := true }

def args : ReceiverSetting → List (List UInt8)
  | bind addr => [ascii "--bind", addr]
  | sleepMs value => [ascii "--sleep-ms", value]
  | verify => [ascii "--verify"]

def bindAddr? : ReceiverSetting → Option (List UInt8)
  | bind addr => some addr
  | _ => none

def sleepMs? : ReceiverSetting → Option UInt32
  | sleepMs value => some (UInt32.ofInt (atoi value))
  | _ => none

def verify? : ReceiverSetting → Option Bool
  | verify => some true
  | _ => none

theorem writes (s : ReceiverSetting) : Writes receiverKind s s.args := by
  cases s with
  | bind addr => exact Writes.value rfl addr
  | sleepMs value => exact Writes.value rfl value
  | verify => exact Writes.flag rfl

end ReceiverSetting

theorem parseReceiverOptions_eq (o : ReceiverOptions) (args : List (List UInt8)) :
    parseReceiverOptions o args = (read receiverKind args).foldl ReceiverSetting.apply o := by
  fun_induction parseReceiverOptions o args with
  | case1 o => rfl
  | case2 o =>
    rw [read_flag (show receiverKind (ascii "--verify") = some (.flag .verify) from rfl)]
    rfl
  | case3 o arg harg =>
    refine (congrArg (List.foldl ReceiverSetting.apply o) (read_last fun s hflag => harg ?_)).symm
    unfold receiverKind at hflag
    split_ifs at hflag with h1 h2 <;> first | exact h2 | cases hflag
  | case4 o value rest ih =>
    rw [ih, read_value (show receiverKind (ascii "--bind") = some (.value .bind) from rfl)]
    rfl
  | case5 o value rest h1 ih =>
    rw [ih, read_value (show receiverKind (ascii "--sleep-ms") = some (.value .sleepMs) from rfl)]
    rfl
  | case6 o value rest h1 h2 ih =>
    rw [ih, read_flag (show receiverKind (ascii "--verify") = some (.flag .verify) from rfl)]
    rfl
  | case7 o arg value rest h1 h2 h3 ih =>
    have hother : receiverKind arg = none := by simp [receiverKind, h1, h2, h3]
    rw [ih, read_other hother]

def receiverOptionsOf (argv : List (List UInt8)) : ReceiverOptions :=
  let settings := read receiverKind (argv.drop 1)
  { bindAddr := (settings.filterMap ReceiverSetting.bindAddr?).getLastD (ascii "tcp://*:5557")
    sleepMs := (settings.filterMap ReceiverSetting.sleepMs?).getLastD 0
    verify := (settings.filterMap ReceiverSetting.verify?).getLastD false }

theorem receiverOptions_eq (argv : List (List UInt8)) : receiverOptions argv = receiverOptionsOf argv := by
  rw [receiverOptions, receiverOptionsOf, parseReceiverOptions_eq]
  generalize read receiverKind (argv.drop 1) = settings
  have hset : ∀ {β : Type} (get : ReceiverOptions → β) (sets : ReceiverSetting → Option β),
      (∀ o s, get (ReceiverSetting.apply o s) = (sets s).getD (get o)) →
      get (settings.foldl ReceiverSetting.apply receiverDefaults) =
        (settings.filterMap sets).getLastD (get receiverDefaults) :=
    fun get sets h => get_foldl get sets h _ settings
  have hbind := hset ReceiverOptions.bindAddr ReceiverSetting.bindAddr? fun o s => by cases s <;> rfl
  have hsleep := hset ReceiverOptions.sleepMs ReceiverSetting.sleepMs? fun o s => by cases s <;> rfl
  have hverify := hset ReceiverOptions.verify ReceiverSetting.verify? fun o s => by cases s <;> rfl
  generalize settings.foldl ReceiverSetting.apply receiverDefaults = o at *
  obtain ⟨bindAddr, sleepMs, verify⟩ := o
  exact ReceiverOptions.mk.injEq .. ▸ ⟨hbind, hsleep, hverify⟩

def canonicalReceiverSettings (o : ReceiverOptions) : List ReceiverSetting :=
  [.bind o.bindAddr, .sleepMs (decimalInt o.sleepMs.toNat)] ++ if o.verify then [.verify] else []

def canonicalReceiverArgs (o : ReceiverOptions) : List (List UInt8) :=
  ascii "receiver" :: (canonicalReceiverSettings o).flatMap ReceiverSetting.args

theorem receiverOptions_canonicalArgs (o : ReceiverOptions) : receiverOptions (canonicalReceiverArgs o) = o := by
  have hread : read receiverKind ((canonicalReceiverArgs o).drop 1) = canonicalReceiverSettings o :=
    read_flatMap ReceiverSetting.writes _
  have hoptions : receiverOptionsOf (canonicalReceiverArgs o) =
      { o with sleepMs := UInt32.ofInt (atoi (decimalInt o.sleepMs.toNat)) } := by
    rw [receiverOptionsOf, hread, canonicalReceiverSettings]
    obtain ⟨bindAddr, sleepMs, verify⟩ := o
    cases verify <;> rfl
  rw [receiverOptions_eq, hoptions, ofInt_atoi_decimalInt]

/-- **The arguments of the receiver.** All options can be asked for. -/
theorem receiver_arguments : (∀ argv, receiverOptions argv = receiverOptionsOf argv) ∧
    ∀ o, receiverOptions (canonicalReceiverArgs o) = o :=
  ⟨receiverOptions_eq, receiverOptions_canonicalArgs⟩

end ShardingSim
