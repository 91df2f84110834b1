import PoorguyMem.HttpResponses

/-!
# How the daemon is started

`pgmemd` reads its arguments in pairs, each setting over the one before it, and stops at the
first argument that it does not know. `pgmem-install` writes the command line that systemd
starts it with, and names settings there that the daemon has no flag for.
-/

namespace PoorguyMem

open ByteString

/-! ### Numbers -/

/-- `std::strtoull` to base ten: what is too large gives the largest number. -/
def strtoull (text : Bytes) : Nat :=
  let (negative, rest) := readSign (text.dropWhile isSpace)
  let value := digitsValue (rest.takeWhile isDigit)
  if 2 ^ 64 ≤ value then 2 ^ 64 - 1
  else if negative then (2 ^ 64 - value) % 2 ^ 64
  else value

/-- `std::atoi`, where it is `strtol` cut to an `int`. -/
def atoi (text : Bytes) : ℤ :=
  let (negative, rest) := readSign (text.dropWhile isSpace)
  let value := digitsValue (rest.takeWhile isDigit)
  let long : ℤ := if negative then max (-value) (-2 ^ 63) else min value (2 ^ 63 - 1)
  long.bmod (2 ^ 32)

/-! ### Arguments -/

structure Args where
  host : Bytes
  port : ℤ
  storeBackend : Bytes
  storeRoot : Bytes
  coreNumber : ℤ
  memBudgetMb : Nat
  diskBudgetGb : Nat
  testForceIoUringUnavailable : Bool
  invalidMessage : Option Bytes

/-- The values without arguments, with the backend of the build. -/
def Args.default (storeBackend : Bytes) : Args where
  host := ascii "0.0.0.0"
  port := 8765
  storeBackend := storeBackend
  storeRoot := ascii ".pgmem/store"
  coreNumber := 4
  memBudgetMb := 512
  diskBudgetGb := 20
  testForceIoUringUnavailable := false
  invalidMessage := none

/-- The flags that a value follows, in the order in which they are compared. -/
inductive Flag where
  | host | port | storeBackend | storeRoot | coreNumber | memBudgetMb | diskBudgetGb
  deriving DecidableEq

def Flag.all : List Flag :=
  [.host, .port, .storeBackend, .storeRoot, .coreNumber, .memBudgetMb, .diskBudgetGb]

def Flag.name : Flag → Bytes
  | .host => ascii "--host"
  | .port => ascii "--port"
  | .storeBackend => ascii "--store-backend"
  | .storeRoot => ascii "--store-root"
  | .coreNumber => ascii "--core-number"
  | .memBudgetMb => ascii "--mem-budget-mb"
  | .diskBudgetGb => ascii "--disk-budget-gb"

def Flag.set (args : Args) (value : Bytes) : Flag → Args
  | .host => { args with host := value }
  | .port => { args with port := atoi value }
  | .storeBackend => { args with storeBackend := value }
  | .storeRoot => { args with storeRoot := value }
  | .coreNumber => { args with coreNumber := atoi value }
  | .memBudgetMb => { args with memBudgetMb := strtoull value }
  | .diskBudgetGb => { args with diskBudgetGb := strtoull value }

def testFlag : Bytes := ascii "--test-force-io-uring-unavailable"

def allowedPgmemdFlags : Bytes :=
  ascii "--host --port --store-backend --store-root --core-number --mem-budget-mb " ++
    ascii "--disk-budget-gb"

def unknownArgument (key : Bytes) : Bytes :=
  ascii "unknown argument: " ++ key ++ ascii "; allowed flags: " ++ allowedPgmemdFlags

/-- The loop of `ParseArgs`. -/
def parseArgs (args : Args) : List Bytes → Args
  | [] => args
  | [key] =>
    if key = testFlag then { args with testForceIoUringUnavailable := true }
    else { args with invalidMessage := some (unknownArgument key) }
  | key :: value :: rest =>
    match Flag.all.find? fun flag => flag.name = key with
    | some flag => parseArgs (flag.set args value) rest
    | none =>
      if key = testFlag then
        parseArgs { args with testForceIoUringUnavailable := true } (value :: rest)
      else { args with invalidMessage := some (unknownArgument key) }

/-- What an accepted argument says, or two of them. -/
inductive Setting where
  | valued (flag : Flag) (value : Bytes)
  | testForceIoUringUnavailable

def Setting.words : Setting → List Bytes
  | .valued flag value => [flag.name, value]
  | .testForceIoUringUnavailable => [testFlag]

def Setting.apply (args : Args) : Setting → Args
  | .valued flag value => flag.set args value
  | .testForceIoUringUnavailable => { args with testForceIoUringUnavailable := true }

/-- An argument that is not read where it stands: it is none of the flags, or one whose value
is missing. -/
def Unreadable (key : Bytes) (more : List Bytes) : Prop :=
  key ≠ testFlag ∧ ((∃ flag : Flag, flag.name = key) → more = [])

theorem find_flag (flag : Flag) : Flag.all.find? (fun f => f.name = flag.name) = some flag := by
  cases flag <;> rfl

theorem find_testFlag : Flag.all.find? (fun f => f.name = testFlag) = none := by rfl

theorem flag_of_find {key : Bytes} {flag : Flag}
    (h : Flag.all.find? (fun f => f.name = key) = some flag) : flag.name = key := by
  simpa using List.find?_some h

theorem no_flag_of_find {key : Bytes} (h : Flag.all.find? (fun f => f.name = key) = none) :
    ¬ ∃ flag : Flag, flag.name = key := by
  rintro ⟨flag, rfl⟩
  rw [find_flag] at h
  cases h

/-- Settings are read one after the other. -/
theorem parseArgs_settings (args : Args) (settings : List Setting) (rest : List Bytes) :
    parseArgs args (settings.flatMap Setting.words ++ rest) =
      parseArgs (settings.foldl Setting.apply args) rest := by
  induction settings generalizing args with
  | nil => rfl
  | cons setting settings ih =>
    rw [List.flatMap_cons, List.append_assoc, List.foldl_cons, ← ih]
    cases setting with
    | valued flag value =>
      change parseArgs args (flag.name :: value :: _) = _
      rw [parseArgs, find_flag]
      rfl
    | testForceIoUringUnavailable =>
      change parseArgs args (testFlag :: (settings.flatMap Setting.words ++ rest)) = _
      generalize settings.flatMap Setting.words ++ rest = more
      cases more with
      | nil => rfl
      | cons value more =>
        rw [parseArgs, find_testFlag]
        rfl

theorem parseArgs_unreadable {args : Args} {key : Bytes} {more : List Bytes}
    (h : Unreadable key more) :
    parseArgs args (key :: more) = { args with invalidMessage := some (unknownArgument key) } := by
  obtain ⟨htest, hflag⟩ := h
  cases more with
  | nil => rw [parseArgs, if_neg htest]
  | cons value rest =>
    rw [parseArgs]
    cases hfind : Flag.all.find? fun f => f.name = key with
    | some flag => exact absurd (hflag ⟨flag, flag_of_find hfind⟩) (List.cons_ne_nil _ _)
    | none =>
      dsimp only
      rw [if_neg htest]

/-- What comes of some arguments: all of them are settings, or one is not read. -/
inductive ArgsRead (args : Args) (argv : List Bytes) : Prop
  | settings (settings : List Setting) (words : argv = settings.flatMap Setting.words)
  | refused (settings : List Setting) (key : Bytes) (more : List Bytes)
      (words : argv = settings.flatMap Setting.words ++ key :: more)
      (unreadable : Unreadable key more)

theorem argsRead (args : Args) (argv : List Bytes) : ArgsRead args argv := by
  induction args, argv using parseArgs.induct with
  | case1 args => exact .settings [] rfl
  | case2 args => exact .settings [.testForceIoUringUnavailable] rfl
  | case3 args key htest => exact .refused [] key [] rfl ⟨htest, fun _ => rfl⟩
  | case4 args key value rest flag hfind ih =>
    obtain rfl := flag_of_find hfind
    rcases ih with ⟨settings, words⟩ | ⟨settings, key, more, words, unreadable⟩
    · exact .settings (.valued flag value :: settings) (by rw [words]; rfl)
    · exact .refused (.valued flag value :: settings) key more (by rw [words]; rfl) unreadable
  | case5 args value rest hfind ih =>
    rcases ih with ⟨settings, words⟩ | ⟨settings, key, more, words, unreadable⟩
    · exact .settings (.testForceIoUringUnavailable :: settings) (by rw [words]; rfl)
    · exact .refused (.testForceIoUringUnavailable :: settings) key more (by rw [words]; rfl)
        unreadable
  | case6 args key value rest hfind htest =>
    exact .refused [] key (value :: rest) rfl ⟨htest, fun h => absurd h (no_flag_of_find hfind)⟩

/-! ### Starting -/

/-- What the daemon sets of `StoreAdapterConfig`. -/
structure StoreAdapterConfig where
  backend : Bytes
  rootPath : Bytes
  numThreads : Nat
  numPartitions : Nat
  memBudgetMb : Nat
  diskBudgetGb : Nat

/-- What the program is built with and runs on: the backend of the build, whether there is
`io_uring`, and which stores `CreateEloqStoreAdapter` opens. -/
structure Machine where
  defaultBackend : Bytes
  ioUring : Bool
  opens : StoreAdapterConfig → Bool

inductive StoreAdapter where
  | inMemory
  | eloqStore (config : StoreAdapterConfig)

/-- What is empty or zero is set to the default. -/
def effectiveConfig (machine : Machine) (config : StoreAdapterConfig) : StoreAdapterConfig :=
  { config with
    backend := if config.backend = [] then machine.defaultBackend else config.backend
    rootPath := if config.rootPath = [] then ascii ".pgmem/store" else config.rootPath
    numPartitions := if config.numPartitions = 0 then 64 else config.numPartitions }

def createStoreAdapter (machine : Machine) (config : StoreAdapterConfig) : Option StoreAdapter :=
  let effective := effectiveConfig machine config
  let backend := lower effective.backend
  if backend = ascii "inmemory" ∨ backend = ascii "memory" then some .inMemory
  else if backend = ascii "eloqstore" ∧ machine.opens effective then some (.eloqStore effective)
  else none

/-- A daemon that comes to open its port. -/
structure Started where
  host : Bytes
  port : ℤ
  numThreads : ℤ
  store : StoreAdapter
  memBudgetMb : Nat
  diskBudgetGb : Nat
  effectiveBackend : Bytes

def Args.storeConfig (args : Args) : StoreAdapterConfig where
  backend := args.storeBackend
  rootPath := args.storeRoot
  numThreads := args.coreNumber.toNat % 2 ^ 16
  numPartitions := args.coreNumber.toNat % 2 ^ 32
  memBudgetMb := args.memBudgetMb
  diskBudgetGb := args.diskBudgetGb

/-- `main` from the arguments to the start of the server: the exit code, or the daemon. -/
def start (machine : Machine) (args : Args) : Except Nat Started :=
  if args.invalidMessage.isSome then .error 2
  -- `ApplyBrpcRuntimeOptions`
  else if args.coreNumber ≤ 0 then .error 2
  else if 65535 < args.coreNumber then .error 2
  else if lower args.storeBackend = ascii "eloqstore" ∧
      (args.testForceIoUringUnavailable || !machine.ioUring) then .error 1
  else
    match createStoreAdapter machine args.storeConfig with
    | none => .error 1
    | some store => .ok
        { host := args.host
          port := args.port
          numThreads := args.coreNumber
          store := store
          memBudgetMb := args.memBudgetMb
          diskBudgetGb := args.diskBudgetGb
          effectiveBackend := lower args.storeBackend }

def launch (machine : Machine) (argv : List Bytes) : Except Nat Started :=
  start machine (parseArgs (.default machine.defaultBackend) argv)

section Starting
variable {machine : Machine} {argv : List Bytes}

/-- What is opened has as many threads and partitions as the daemon has cores. -/
structure Started.Sized (daemon : Started) : Prop where
  cores : 1 ≤ daemon.numThreads ∧ daemon.numThreads ≤ 65535
  store : ∀ config, daemon.store = .eloqStore config →
    (config.numThreads : ℤ) = daemon.numThreads ∧
      (config.numPartitions : ℤ) = daemon.numThreads ∧ config.rootPath ≠ []

theorem createStoreAdapter_eloqStore {config config' : StoreAdapterConfig}
    (h : createStoreAdapter machine config = some (.eloqStore config')) :
    config'.numThreads = config.numThreads ∧
      config'.numPartitions = (if config.numPartitions = 0 then 64 else config.numPartitions) ∧
      config'.rootPath ≠ [] := by
  have hroot : (effectiveConfig machine config).rootPath ≠ [] := by
    rw [effectiveConfig]
    dsimp only
    split
    · exact List.cons_ne_nil _ _
    · assumption
  rw [createStoreAdapter] at h
  split at h
  · cases h
  · split at h
    · obtain rfl := StoreAdapter.eloqStore.inj (Option.some.inj h)
      exact ⟨rfl, rfl, hroot⟩
    · cases h

theorem sized_start {args : Args} {daemon : Started} (h : start machine args = .ok daemon) :
    daemon.Sized := by
  rw [start] at h
  split at h
  · cases h
  split at h
  · cases h
  split at h
  · cases h
  rename_i hpos hle
  split at h
  · cases h
  split at h
  · cases h
  · rename_i store hstore
    cases h
    refine ⟨⟨Int.add_one_le_of_lt (Int.lt_of_not_ge hpos), Int.le_of_not_gt hle⟩, ?_⟩
    rintro config rfl
    obtain ⟨hthreads, hpartitions, hroot⟩ := createStoreAdapter_eloqStore hstore
    have hcores : args.coreNumber.toNat < 2 ^ 16 := by omega
    rw [hthreads, hpartitions, Args.storeConfig]
    dsimp only
    rw [Nat.mod_eq_of_lt hcores, Nat.mod_eq_of_lt (by omega), if_neg (by omega)]
    exact ⟨by omega, by omega, hroot⟩

/-- Whatever the arguments: they are settings, and the daemon is started with the last of each;
or they are settings up to one that is not read, which is named, and the exit code is 2. A
daemon that is started has as many threads and partitions as it was given cores. -/
theorem launch_exact (machine : Machine) (argv : List Bytes) :
    (∀ settings : List Setting, argv = settings.flatMap Setting.words →
        launch machine argv =
          start machine (settings.foldl Setting.apply (.default machine.defaultBackend))) ∧
      (∀ (settings : List Setting) (key : Bytes) (more : List Bytes),
        argv = settings.flatMap Setting.words ++ key :: more → Unreadable key more →
          launch machine argv = .error 2 ∧
            (parseArgs (.default machine.defaultBackend) argv).invalidMessage =
              some (unknownArgument key)) ∧
      ((∃ settings : List Setting, argv = settings.flatMap Setting.words) ∨
        ∃ (settings : List Setting) (key : Bytes) (more : List Bytes),
          argv = settings.flatMap Setting.words ++ key :: more ∧ Unreadable key more) ∧
      ∀ daemon, launch machine argv = .ok daemon → daemon.Sized := by
  refine ⟨?_, ?_, ?_, fun daemon h => sized_start h⟩
  · rintro settings rfl
    have hread := parseArgs_settings (.default machine.defaultBackend) settings []
    rw [List.append_nil] at hread
    rw [launch, hread, parseArgs]
  · rintro settings key more rfl hkey
    rw [launch, parseArgs_settings, parseArgs_unreadable hkey, start]
    exact ⟨rfl, rfl⟩
  · rcases argsRead (.default machine.defaultBackend) argv with
      ⟨settings, words⟩ | ⟨settings, key, more, words, unreadable⟩
    · exact Or.inl ⟨settings, words⟩
    · exact Or.inr ⟨settings, key, more, words, unreadable⟩

end Starting

/-! ### The installed unit -/

structure InstallOptions where
  pgmemdBin : Bytes
  pgmemdExtraArgs : Bytes
  storeRoot : Bytes
  coreNumber : ℤ

/-- `path.is_absolute()` for the paths of a Unix system, and their concatenation. -/
def joinPath (base path : Bytes) : Bytes :=
  if path.head? = some 47 then path
  else if base = [] ∨ base.getLast? = some 47 then base ++ path
  else base ++ 47 :: path

def resolveStoreRoot (home : Option Bytes) (storeRoot : Bytes) : Bytes :=
  let path := if storeRoot = [] then ascii ".pgmem/store" else storeRoot
  if path.head? = some 47 then path
  else
    match home with
    | some home => joinPath home path
    | none => path

def unitHead : Bytes :=
  ascii "[Unit]\nDescription=Poorguy Memory Daemon\nAfter=network.target\n\n" ++
    ascii "[Service]\nType=simple\nExecStart="

/-- The words of the command line up to those of the store root. -/
def execStartWords (options : InstallOptions) : List Bytes :=
  [options.pgmemdBin, ascii "--host", ascii "0.0.0.0", ascii "--port", decimal 8765,
    ascii "--store-backend", ascii "eloqstore", ascii "--core-number",
    printInt options.coreNumber, ascii "--mem-budget-mb", decimal 512, ascii "--disk-budget-gb",
    decimal 20, ascii "--gc-high-watermark", ascii "0.9", ascii "--gc-low-watermark",
    ascii "0.75", ascii "--gc-batch-size", decimal 256, ascii "--max-record-bytes",
    decimal 131072, ascii "--enable-tombstone-gc", ascii "true", ascii "--store-root"]

def joinWords (words : List Bytes) : Bytes := List.intercalate [32] words

/-- What `WriteSystemdUnit` writes. -/
def systemdUnit (home : Option Bytes) (options : InstallOptions) : Bytes :=
  unitHead ++ joinWords (execStartWords options) ++
    32 :: (resolveStoreRoot home options.storeRoot ++
      (if options.pgmemdExtraArgs = [] then [] else 32 :: options.pgmemdExtraArgs) ++
      ascii "\nRestart=on-failure\nRestartSec=2\n\n[Install]\nWantedBy=default.target\n")

/-- A word that means itself in a command line of a unit. -/
def PlainWord (word : Bytes) : Prop :=
  word ≠ [] ∧ ∀ c ∈ word, isAsciiWordChar c = true ∨ c = 45 ∨ c = 46 ∨ c = 47

/-- How a command line of the unit is split: plain words with blanks between them are the first
words of what is executed, unless the first begins with a minus sign. -/
def SplitsWords (argvOf : Bytes → Option (List Bytes)) : Prop :=
  ∀ (words : List Bytes) (rest : Bytes) (argv : List Bytes), (∀ word ∈ words, PlainWord word) →
    (∀ word ∈ words.head?, word.head? ≠ some 45) →
    argvOf (unitHead ++ joinWords words ++ 32 :: rest) = some argv → words <+: argv

instance (word : Bytes) : Decidable (PlainWord word) := inferInstanceAs (Decidable (_ ∧ _))

theorem plainWord_decimal (n : Nat) : PlainWord (decimal n) := by
  refine ⟨Reference.decimal_ne_nil n, fun c hc => Or.inl ?_⟩
  have hrange := isDigits_decimal n c hc
  rw [isAsciiWordChar, decide_eq_true_eq, UInt8.le_iff_toNat_le, UInt8.le_iff_toNat_le]
  exact Or.inl hrange

theorem plainWord_printInt (n : ℤ) : PlainWord (printInt n) := by
  obtain ⟨-, hdigits⟩ := plainWord_decimal n.natAbs
  rw [printInt]
  split
  · refine ⟨List.cons_ne_nil _ _, fun c hc => ?_⟩
    rcases List.mem_cons.mp hc with rfl | hc
    · exact Or.inl rfl
    · exact hdigits c hc
  · exact plainWord_decimal _

theorem plainWord_execStart {options : InstallOptions} (hbin : PlainWord options.pgmemdBin) :
    ∀ word ∈ execStartWords options, PlainWord word := by
  have hcores := plainWord_printInt options.coreNumber
  simp only [execStartWords, List.forall_mem_cons, hbin, hcores, plainWord_decimal, true_and]
  decide +kernel

section Examples

/-- The command line of a unit that has no quotes, split at its blanks. -/
def splitUnit (unit : Bytes) : Option (List Bytes) :=
  if unitHead <+: unit then
    some (((unit.drop unitHead.length).takeWhile (· ≠ 10)).splitOn 32)
  else none

theorem not_mem_plainWord {word : Bytes} (h : PlainWord word) : 32 ∉ word ∧ 10 ∉ word := by
  have hne : ∀ c : UInt8, c = 32 ∨ c = 10 → c ∉ word := by
    rintro c hc hmem
    have hplain := h.2 c hmem
    rcases hc with rfl | rfl
    · revert hplain
      decide
    · revert hplain
      decide
  exact ⟨hne 32 (Or.inl rfl), hne 10 (Or.inr rfl)⟩

theorem joinWords_cons (word : Bytes) {words : List Bytes} (h : words ≠ []) :
    joinWords (word :: words) = word ++ 32 :: joinWords words := by
  obtain ⟨next, words, rfl⟩ := List.exists_cons_of_ne_nil h
  simp [joinWords, List.intercalate]

theorem newline_notMem_joinWords {words : List Bytes} (h : ∀ word ∈ words, PlainWord word) :
    10 ∉ joinWords words := by
  induction words with
  | nil => exact List.not_mem_nil
  | cons word words ih =>
    have hword := (not_mem_plainWord (h word List.mem_cons_self)).2
    rcases eq_or_ne words [] with rfl | hwords
    · simpa [joinWords, List.intercalate] using hword
    · have hrest := ih fun w hw => h w (List.mem_cons_of_mem _ hw)
      rw [joinWords_cons word hwords, List.mem_append, List.mem_cons]
      rintro (hc | hc | hc)
      · exact hword hc
      · exact absurd hc (by decide)
      · exact hrest hc

theorem splitOn_joinWords {words : List Bytes} (hne : words ≠ [])
    (h : ∀ word ∈ words, PlainWord word) (rest : Bytes) :
    (joinWords words ++ 32 :: rest).splitOn 32 = words ++ rest.splitOn 32 := by
  induction words with
  | nil => exact absurd rfl hne
  | cons word words ih =>
    have hfirst : ∀ more : Bytes, (word ++ 32 :: more).splitOn 32 = word :: more.splitOn 32 := by
      intro more
      exact List.splitOn_append_cons_self_of_not_mem
        (not_mem_plainWord (h word List.mem_cons_self)).1 more
    rcases eq_or_ne words [] with rfl | hwords
    · have hone : joinWords [word] = word := by simp [joinWords, List.intercalate]
      rw [hone, hfirst]
      rfl
    · rw [joinWords_cons word hwords, List.append_assoc, List.cons_append, hfirst,
        ih hwords fun w hw => h w (List.mem_cons_of_mem _ hw)]
      rfl

theorem splitsWords_splitUnit : SplitsWords splitUnit := by
  intro words rest argv hwords _ hargv
  rcases eq_or_ne words [] with rfl | hne
  · exact List.nil_prefix
  · rw [splitUnit, if_pos (by rw [List.append_assoc]; exact List.prefix_append _ _),
      List.append_assoc, List.drop_left] at hargv
    have hline : ∀ c ∈ joinWords words, decide (c ≠ 10) = true := by
      intro c hc
      have hc10 : c ≠ 10 := fun heq => newline_notMem_joinWords hwords (heq ▸ hc)
      simpa using hc10
    rw [List.takeWhile_append_of_pos hline, List.takeWhile_cons_of_pos (by decide),
      splitOn_joinWords hne hwords] at hargv
    rw [← Option.some.inj hargv]
    exact List.prefix_append _ _

end Examples

end PoorguyMem
