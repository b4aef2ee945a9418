import OsAssignments.Library.Scanning

/-!
# The options of the server

The loop of `main` over its arguments. Each option takes the argument behind it, whatever that is,
and the last of a kind counts; the directory named by an option is freed when another one is named,
though it was never allocated. What the loop does is told by a grammar of command lines: options in
front, and behind them what stops it.
-/

namespace OsAssignments.HttpServer

open Text

/-- `request_handler`. -/
inductive Handler
  /-- `handle_files_request`. -/
  | files
  /-- `handle_proxy_request`. -/
  | proxy
  deriving DecidableEq, Repr

/-- `server_files_directory`. -/
inductive FilesDirectory
  /-- The working directory, in a block from `malloc`. -/
  | working
  /-- An argument. -/
  | argument (text : List UInt8)
  deriving DecidableEq, Repr

/-- The global configuration variables, with the handler. -/
structure Config where
  /-- `request_handler`. -/
  requestHandler : Handler
  /-- `server_files_directory`. -/
  filesDirectory : FilesDirectory
  /-- `server_proxy_hostname`. -/
  proxyHostname : List UInt8
  /-- `server_proxy_port`. -/
  proxyPort : Int
  /-- `server_port`. -/
  port : Int
  deriving DecidableEq, Repr

/-- The default settings. -/
def Config.default : Config where
  requestHandler := .files
  filesDirectory := .working
  proxyHostname := ascii "inst.eecs.berkeley.edu"
  proxyPort := 80
  port := 8000

/-- How the loop ends. -/
inductive Start
  /-- `serve_forever` is called. -/
  | serves (config : Config)
  /-- The message is printed with the usage, and `main` exits. -/
  | usage (message : List UInt8)
  /-- A pointer is freed that `malloc` has not returned. -/
  | invalidFree
  deriving DecidableEq, Repr

/-- What `--proxy` does with its argument: the text up to the first colon names the host, and what
is behind it the port. -/
def setProxy (config : Config) (proxyTarget : List UInt8) : Config :=
  match find [58] proxyTarget with
  | some (host, port) =>
    { config with requestHandler := .proxy, proxyHostname := host, proxyPort := atoi port }
  | none =>
    { config with requestHandler := .proxy, proxyHostname := proxyTarget, proxyPort := 80 }

/-- The message for an option without its argument. -/
def expected (flag : String) : List UInt8 := ascii "Expected argument after " ++ ascii flag ++ [10]

/-- The message for an argument that is no option. -/
def unrecognized (arg : List UInt8) : List UInt8 := ascii "Unrecognized option: " ++ arg ++ [10]

/-- The loop of `main`. -/
def readOptions (config : Config) : List (List UInt8) → Start
  | [] => .serves config
  | arg :: rest =>
    if arg = ascii "--files" then
      match config.filesDirectory with
      | .argument _ => .invalidFree
      | .working =>
        match rest with
        | [] => .usage (expected "--files")
        | directory :: rest =>
          readOptions { config with requestHandler := .files, filesDirectory := .argument directory }
            rest
    else if arg = ascii "--proxy" then
      match rest with
      | [] => .usage (expected "--proxy")
      | proxyTarget :: rest => readOptions (setProxy config proxyTarget) rest
    else if arg = ascii "--port" then
      match rest with
      | [] => .usage (expected "--port")
      | serverPortString :: rest => readOptions { config with port := atoi serverPortString } rest
    else if arg = ascii "--help" then .usage []
    else .usage (unrecognized arg)

/-! ## The grammar -/

/-- An option with its argument. -/
inductive ServerOption
  /-- `--files`. -/
  | files (directory : List UInt8)
  /-- `--proxy`. -/
  | proxy (proxyTarget : List UInt8)
  /-- `--port`. -/
  | port (serverPortString : List UInt8)
  deriving DecidableEq, Repr

namespace ServerOption

/-- The arguments of an option. -/
def render : ServerOption → List (List UInt8)
  | files directory => [ascii "--files", directory]
  | proxy proxyTarget => [ascii "--proxy", proxyTarget]
  | port serverPortString => [ascii "--port", serverPortString]

/-- What an option sets. -/
def apply (config : Config) : ServerOption → Config
  | files directory =>
    { config with requestHandler := .files, filesDirectory := .argument directory }
  | proxy proxyTarget => setProxy config proxyTarget
  | port serverPortString => { config with port := atoi serverPortString }

/-- The option names the directory. -/
def isFiles : ServerOption → Bool
  | files _ => true
  | _ => false

end ServerOption

/-- What stops the loop at the arguments that are left. -/
inductive Stops (config : Config) : List (List UInt8) → Start → Prop
  /-- Nothing is left. -/
  | finished : Stops config [] (.serves config)
  /-- The directory is named again. -/
  | filesAgain (directory : List UInt8) (rest : List (List UInt8))
      (named : config.filesDirectory = .argument directory) :
      Stops config (ascii "--files" :: rest) .invalidFree
  /-- The directory is not there. -/
  | noFiles (unnamed : config.filesDirectory = .working) :
      Stops config [ascii "--files"] (.usage (expected "--files"))
  /-- The target is not there. -/
  | noProxy : Stops config [ascii "--proxy"] (.usage (expected "--proxy"))
  /-- The port is not there. -/
  | noPort : Stops config [ascii "--port"] (.usage (expected "--port"))
  /-- Help is asked for. -/
  | help (rest : List (List UInt8)) : Stops config (ascii "--help" :: rest) (.usage [])
  /-- The argument is no option. -/
  | unknown (arg : List UInt8) (rest : List (List UInt8))
      (other : ∀ known ∈ ["--files", "--proxy", "--port", "--help"], arg ≠ ascii known) :
      Stops config (arg :: rest) (.usage (unrecognized arg))

variable {config : Config} {args rest : List (List UInt8)} {start : Start}
  {options : List ServerOption}

/-- The times that the directory has been named. -/
def Config.named (config : Config) : Nat :=
  match config.filesDirectory with
  | .working => 0
  | .argument _ => 1

/-- A target names no directory. -/
theorem named_setProxy (config : Config) (proxyTarget : List UInt8) :
    (setProxy config proxyTarget).named = config.named := by
  unfold setProxy
  split <;> rfl

/-- An option names the directory once more if it is one for it. -/
theorem ServerOption.named_apply (option : ServerOption)
    (once : option.isFiles.toNat + config.named ≤ 1) :
    (option.apply config).named = option.isFiles.toNat + config.named := by
  cases option with
  | files directory =>
    have unnamed : config.named = 0 := Nat.le_zero.mp (Nat.le_of_add_le_add_left once)
    rw [unnamed]
    rfl
  | proxy proxyTarget => exact (named_setProxy config proxyTarget).trans (Nat.zero_add _).symm
  | port serverPortString => exact (Nat.zero_add _).symm

/-- An option in front is read, if the directory is not named again by it. -/
theorem readOptions_option (option : ServerOption) (once : option.isFiles.toNat + config.named ≤ 1) :
    readOptions config (option.render ++ rest) = readOptions (option.apply config) rest := by
  have proxyFiles : ascii "--proxy" ≠ ascii "--files" := by decide
  have portFiles : ascii "--port" ≠ ascii "--files" := by decide
  have portProxy : ascii "--port" ≠ ascii "--proxy" := by decide
  cases option with
  | files directory =>
    have unnamed : config.named = 0 := Nat.le_zero.mp (Nat.le_of_add_le_add_left once)
    have working : config.filesDirectory = .working := by
      unfold Config.named at unnamed
      split at unnamed
      · assumption
      · contradiction
    change readOptions config (ascii "--files" :: directory :: rest) = _
    rw [readOptions.eq_def]
    simp only [if_true, working]
    rfl
  | proxy proxyTarget =>
    change readOptions config (ascii "--proxy" :: proxyTarget :: rest) = _
    rw [readOptions.eq_def]
    simp only [if_neg proxyFiles, if_true]
    rfl
  | port serverPortString =>
    change readOptions config (ascii "--port" :: serverPortString :: rest) = _
    rw [readOptions.eq_def]
    simp only [if_neg portFiles, if_neg portProxy, if_true]
    rfl

/-- Where the loop is stopped, it ends as that says. -/
theorem Stops.ends (stops : Stops config rest start) : readOptions config rest = start := by
  have proxyFiles : ascii "--proxy" ≠ ascii "--files" := by decide
  have portFiles : ascii "--port" ≠ ascii "--files" := by decide
  have portProxy : ascii "--port" ≠ ascii "--proxy" := by decide
  have helpFiles : ascii "--help" ≠ ascii "--files" := by decide
  have helpProxy : ascii "--help" ≠ ascii "--proxy" := by decide
  have helpPort : ascii "--help" ≠ ascii "--port" := by decide
  rw [readOptions.eq_def]
  cases stops with
  | finished => rfl
  | filesAgain directory rest named => simp only [if_true, named]
  | noFiles unnamed => simp only [if_true, unnamed]
  | noProxy => simp only [if_neg proxyFiles, if_true]
  | noPort => simp only [if_neg portFiles, if_neg portProxy, if_true]
  | help rest => simp only [if_neg helpFiles, if_neg helpProxy, if_neg helpPort, if_true]
  | unknown arg rest other =>
    simp only [List.forall_mem_cons] at other
    simp only [if_neg other.1, if_neg other.2.1, if_neg other.2.2.1, if_neg other.2.2.2.1]

/-- The arguments begin with an option, or they stop the loop. -/
theorem option_or_stops (config : Config) (args : List (List UInt8)) :
    (∃ option : ServerOption, ∃ rest, args = option.render ++ rest ∧
      option.isFiles.toNat + config.named ≤ 1) ∨ ∃ start, Stops config args start := by
  cases args with
  | nil => exact .inr ⟨_, .finished⟩
  | cons arg rest =>
    by_cases isFiles : arg = ascii "--files"
    · subst isFiles
      cases named : config.filesDirectory with
      | argument directory => exact .inr ⟨_, .filesAgain directory rest named⟩
      | working =>
        cases rest with
        | nil => exact .inr ⟨_, .noFiles named⟩
        | cons directory rest =>
          refine .inl ⟨.files directory, rest, rfl, ?_⟩
          unfold Config.named
          rw [named]
          exact Nat.le_refl 1
    have atMost : config.named ≤ 1 := by
      unfold Config.named
      split <;> decide
    by_cases isProxy : arg = ascii "--proxy"
    · subst isProxy
      cases rest with
      | nil => exact .inr ⟨_, .noProxy⟩
      | cons proxyTarget rest =>
        exact .inl ⟨.proxy proxyTarget, rest, rfl, (Nat.zero_add _).trans_le atMost⟩
    by_cases isPort : arg = ascii "--port"
    · subst isPort
      cases rest with
      | nil => exact .inr ⟨_, .noPort⟩
      | cons serverPortString rest =>
        exact .inl ⟨.port serverPortString, rest, rfl, (Nat.zero_add _).trans_le atMost⟩
    by_cases isHelp : arg = ascii "--help"
    · subst isHelp
      exact .inr ⟨_, .help rest⟩
    · refine .inr ⟨_, .unknown arg rest ?_⟩
      simp only [List.forall_mem_cons]
      exact ⟨isFiles, isProxy, isPort, isHelp, by simp⟩

/-- An option in front is counted when it names the directory. -/
theorem countP_isFiles (option : ServerOption) (options : List ServerOption) :
    (option :: options).countP ServerOption.isFiles =
      options.countP ServerOption.isFiles + option.isFiles.toNat := by
  rw [List.countP_cons]
  cases option <;> rfl

/-- Options in front are applied one after another. -/
theorem readOptions_options (once : options.countP ServerOption.isFiles + config.named ≤ 1) :
    readOptions config (options.flatMap ServerOption.render ++ rest) =
      readOptions (options.foldl ServerOption.apply config) rest := by
  induction options generalizing config with
  | nil => rfl
  | cons option options ih =>
    have count := countP_isFiles option options
    have first : option.isFiles.toNat + config.named ≤ 1 := by omega
    have later : options.countP ServerOption.isFiles + (option.apply config).named ≤ 1 := by
      rw [option.named_apply first]
      omega
    rw [List.flatMap_cons, List.append_assoc, readOptions_option option first, ih later,
      List.foldl_cons]

/-- Every command line is a number of options that name the directory once at most, and what stops
the loop behind them. -/
theorem readOptions_cases (config : Config) (args : List (List UInt8)) :
    ∃ options : List ServerOption, ∃ rest, args = options.flatMap ServerOption.render ++ rest ∧
      options.countP ServerOption.isFiles + config.named ≤ 1 ∧
      Stops (options.foldl ServerOption.apply config) rest (readOptions config args) := by
  induction length : args.length using Nat.strong_induction_on generalizing config args with
  | _ size ih =>
    rcases option_or_stops config args with ⟨option, rest, rfl, once⟩ | ⟨start, stops⟩
    · have shorter : rest.length < size := by
        rw [← length, List.length_append]
        have two : 0 < option.render.length := by cases option <;> exact Nat.zero_lt_succ _
        omega
      obtain ⟨options, left, whole, once', stops⟩ := ih rest.length shorter (option.apply config) rest rfl
      have count := countP_isFiles option options
      rw [option.named_apply once] at once'
      refine ⟨option :: options, left, ?_, by omega, ?_⟩
      · rw [List.flatMap_cons, List.append_assoc, ← whole]
      · rw [readOptions_option option once, List.foldl_cons]
        exact stops
    · have atMost : config.named ≤ 1 := by
        unfold Config.named
        split <;> decide
      refine ⟨[], args, rfl, ?_, ?_⟩
      · rw [List.countP_nil, Nat.zero_add]
        exact atMost
      · rw [stops.ends]
        exact stops

/-- The loop ends in a way exactly when the arguments are options that name the directory once at
most, followed by arguments that stop it in this way under the settings of those options. -/
theorem readOptions_iff : readOptions .default args = start ↔
    ∃ options : List ServerOption, ∃ rest, args = options.flatMap ServerOption.render ++ rest ∧
      options.countP ServerOption.isFiles ≤ 1 ∧
      Stops (options.foldl ServerOption.apply .default) rest start := by
  constructor
  · rintro rfl
    exact readOptions_cases .default args
  · rintro ⟨options, rest, rfl, once, stops⟩
    have once' : options.countP ServerOption.isFiles + Config.default.named ≤ 1 := once
    rw [readOptions_options once', stops.ends]

example : readOptions .default [ascii "--port", ascii "8080", ascii "--proxy", ascii "host:81:9"] =
    .serves ⟨.proxy, .working, ascii "host", 81, 8080⟩ := by decide +kernel

end OsAssignments.HttpServer
