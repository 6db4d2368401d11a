import Axan.Base.Tokens
import Axan.SessionTree.Load

/-!
# Shell integration: `AxanShellIntegration.cpp`

At a spawn the commandline of a shell gets flags that make it load the integration script. Flags that
run a command must not be given twice: a commandline that has one is left alone.

* `argTokensLower`, `powershellHasRunFlag`, `wslHasOneShot` — is there such a flag?
* `computeShellIntegration` — what is spawned.
* `RunsCommand` — the commandlines that are left alone. `runsCommand_injected` and
  `runsCommand_wrapped` say that what is added by the integration, and by the survival of a command,
  is found again: a blank comes first, so that it is cut for itself.
* `integrated_once` — nothing is added to either.

`LocalState` holds what is asked of the system: the folder of the scripts, the operator on paths,
and whether a script could be written.
-/

namespace Axan.SessionTree

open Axan.Base Axan.LaunchEntryWire

/-! ### Flags -/

/-- The quotes and blanks of a commandline. -/
def quoting : Quoting WChar where
  quote := wide '"'
  isBlank := isBlank
  isBlank_quote := by decide

/-- What is behind the executable. -/
def behindExe (cmdline : WString) : WString :=
  match cmdline.dropWhile isBlank with
  | [] => []
  | c :: rest => (quoting.nextToken c rest).2

/-- Source: `_argTokensLower` -/
def argTokensLower (cmdline : WString) : List WString :=
  (quoting.tokens (behindExe cmdline)).map fun tok => tok.map toLower

/-- Source: `_hasToken` -/
def hasToken (tokens : List WString) (target : WString) : Bool := tokens.any fun t => t = target

/-- The parameters that define what PowerShell runs. Source: `runParams` -/
def runParams : List WString := [L "command", L "encodedcommand", L "file"]

/-- Does a token define what PowerShell runs? The name goes up to a colon. -/
def isRunFlag (t : WString) : Bool :=
  match t with
  | d :: c :: rest =>
      let stem := (c :: rest).takeWhile (· ≠ wide ':')
      d = wide '-' && !stem.isEmpty && (stem = L "ec" || runParams.any fun full => stem.isPrefixOf full)
  | _ => false

/-- Source: `_powershellHasRunFlag` -/
def powershellHasRunFlag (tokens : List WString) : Bool := tokens.any isRunFlag

/-- Source: `_wslHasOneShot` -/
def wslHasOneShot (tokens : List WString) : Bool :=
  hasToken tokens (L "--") || hasToken tokens (L "-e") || hasToken tokens (L "--exec")

/-! ### The scripts -/

/-- Source: `_psSingleQuoteEscape` -/
def psSingleQuoteEscape (s : WString) : WString :=
  s.flatMap fun c => if c = wide '\'' then [c, c] else [c]

/-- Source: `_toWslMntPath` -/
def toWslMntPath (winPath : WString) : WString :=
  match winPath with
  | drive :: colon :: rest =>
      if colon = wide ':' then
        L "/mnt/" ++ toLower drive :: rest.map fun c => if c = wide '\\' then wide '/' else c
      else winPath
  | _ => winPath

/-- What the integration asks of the system. -/
structure LocalState where
  /-- `_shellIntegrationDir`, unless it throws. -/
  shellIntegrationDir : Option WString
  /-- `std::filesystem::path::operator/` -/
  append : WString → WString → WString
  /-- `_materialize`: is the script at a path there and up to date? -/
  materialize : WString → Bool

/-- The path of a script, if it is there. -/
def LocalState.script (state : LocalState) (shell file : WString) : Option WString := do
  let dir ← state.shellIntegrationDir
  let path := state.append (state.append dir shell) file
  if state.materialize path then some path else none

/-! ### The spawn -/

/-- Source: `ShellIntegration` -/
structure ShellIntegration where
  applied : Bool := false
  commandline : WString
  promptEnv : Option WString := none
  deriving DecidableEq, Repr

/-- The flags that make PowerShell load a script. -/
def powerShellFlags (tokens : List WString) (script : WString) : WString :=
  (if hasToken tokens (L "-noexit") then [] else L " -NoExit") ++ L " -Command \". '" ++
    psSingleQuoteEscape script ++ L "'\""

/-- The arguments that make WSL start bash with a script. -/
def wslArguments (script : WString) : WString :=
  L " -- bash --rcfile \"" ++ toWslMntPath script ++ L "\" -i"

/-- Source: `ComputeShellIntegration` -/
def computeShellIntegration (host : Host) (state : LocalState) (commandline : WString)
    (enabled : Bool) : ShellIntegration :=
  if !enabled then { commandline }
  else
    let tokens := argTokensLower commandline
    match detectShellFamily host commandline with
    | .unknown => { commandline }
    | .powerShell =>
        if powershellHasRunFlag tokens then { commandline }
        else
          match state.script (L "pwsh") (L "axan-shell-integration.ps1") with
          | none => { commandline }
          | some script =>
              { commandline := commandline ++ powerShellFlags tokens script, applied := true }
    | .cmd =>
        if hasToken tokens (L "/c") then { commandline }
        else { commandline, applied := true, promptEnv := some (L "$E]9;9;\"$P\"$E\\$P$G") }
    | .wsl =>
        if wslHasOneShot tokens then { commandline }
        else
          match state.script (L "bash") (L "axan-rcfile.sh") with
          | none => { commandline }
          | some script => { commandline := commandline ++ wslArguments script, applied := true }

/-! ### Tokens of a commandline -/

variable {host : Host} {cmdline added : WString}

/-- The executable is the first token, and the arguments are the others. -/
theorem tokens_eq (h : cmdline.dropWhile isBlank ≠ []) :
    quoting.tokens cmdline = exeOf cmdline :: quoting.tokens (behindExe cmdline) := by
  cases hc : cmdline.dropWhile isBlank with
  | nil => exact absurd hc h
  | cons c rest =>
      have hstarts := Quoting.starts_of_cons (Q := quoting) hc
      unfold exeOf behindExe Quoting.tokens
      rw [hstarts, hc]
      simp only [List.map_cons, List.cons.injEq, and_true]
      unfold Quoting.nextToken
      have hquote : quoting.quote = wide '"' := rfl
      rw [hquote]
      split <;> rfl

/-- A known shell has a name. -/
theorem not_blank_of_family (h : detectShellFamily host cmdline ≠ .unknown) :
    cmdline.dropWhile isBlank ≠ [] := by
  intro hnil
  have hexe : exeBasenameLower host cmdline = [] := by
    rw [exeBasenameLower, exeOf, hnil]
    rfl
  rw [detectShellFamily, hexe] at h
  exact h (by decide)

section Added

variable (hopen : ¬ quoting.EndsOpen cmdline) (hblank : ∀ d ∈ added.head?, isBlank d = true)

include hopen hblank

/-- What is added behind a blank is cut for itself, and changes neither the executable nor an
argument. -/
theorem tokens_added (h : cmdline.dropWhile isBlank ≠ []) :
    exeOf (cmdline ++ added) = exeOf cmdline ∧
      argTokensLower (cmdline ++ added) =
        argTokensLower cmdline ++ (quoting.tokens added).map fun tok => tok.map toLower := by
  have hadded : (cmdline ++ added).dropWhile isBlank ≠ [] := by
    rw [List.dropWhile_append, if_neg (by rwa [List.isEmpty_iff])]
    exact fun hnil => h (List.append_eq_nil_iff.mp hnil).1
  have happend := Quoting.tokens_append hopen hblank
  rw [tokens_eq h, tokens_eq hadded, List.cons_append] at happend
  obtain ⟨hexe, hargs⟩ := List.cons.inj happend
  refine ⟨hexe, ?_⟩
  rw [argTokensLower, hargs, List.map_append, argTokensLower]

/-- The added arguments do not change the family. -/
theorem detectShellFamily_added (h : detectShellFamily host cmdline ≠ .unknown) :
    detectShellFamily host (cmdline ++ added) = detectShellFamily host cmdline := by
  have hexe := (tokens_added hopen hblank (not_blank_of_family h)).1
  rw [detectShellFamily, exeBasenameLower, hexe, detectShellFamily, exeBasenameLower]

end Added

/-! ### Commandlines that run a command -/

/-- Does a commandline say itself what is run? -/
def runsCommand (host : Host) (cmdline : WString) : Bool :=
  match detectShellFamily host cmdline with
  | .powerShell => powershellHasRunFlag (argTokensLower cmdline)
  | .wsl => wslHasOneShot (argTokensLower cmdline)
  | _ => false

/-- Such a commandline is left alone. -/
theorem computeShellIntegration_of_runsCommand {state : LocalState} (enabled : Bool)
    (h : runsCommand host cmdline = true) :
    computeShellIntegration host state cmdline enabled = { commandline := cmdline } := by
  unfold runsCommand at h
  unfold computeShellIntegration
  split_ifs
  · rfl
  · split at h
    next hfamily => simp only [hfamily, h, if_true]
    next hfamily => simp only [hfamily, h, if_true]
    next => cases h

/-- The flag of a family that says what is run. -/
def isFlagOf : ShellFamily → WString → Bool
  | .powerShell, t => isRunFlag t
  | .wsl, t => t = L "--" || t = L "-e" || t = L "--exec"
  | _, _ => false

/-- A command is asked for by one of the flags. -/
theorem runsCommand_eq (cmdline : WString) : runsCommand host cmdline =
    (argTokensLower cmdline).any (isFlagOf (detectShellFamily host cmdline)) := by
  unfold runsCommand
  split
  next hfamily => rw [hfamily]; rfl
  next hfamily =>
    rw [hfamily, wslHasOneShot, hasToken, hasToken, hasToken, Bool.eq_iff_iff]
    simp only [Bool.or_eq_true, List.any_eq_true, isFlagOf, decide_eq_true_eq]
    constructor
    · rintro ((⟨t, ht, h⟩ | ⟨t, ht, h⟩) | ⟨t, ht, h⟩)
      · exact ⟨t, ht, Or.inl (Or.inl h)⟩
      · exact ⟨t, ht, Or.inl (Or.inr h)⟩
      · exact ⟨t, ht, Or.inr h⟩
    · rintro ⟨t, ht, (h | h) | h⟩
      · exact Or.inl (Or.inl ⟨t, ht, h⟩)
      · exact Or.inl (Or.inr ⟨t, ht, h⟩)
      · exact Or.inr ⟨t, ht, h⟩
  next hpower hwsl =>
    cases hfamily : detectShellFamily host cmdline with
    | powerShell => exact absurd hfamily hpower
    | wsl => exact absurd hfamily hwsl
    | unknown => simp [isFlagOf]
    | cmd => simp [isFlagOf]

/-- A flag that is added behind a blank is found, if a blank is behind it too. -/
theorem runsCommand_added {front back t : WString} (hopen : ¬ quoting.EndsOpen cmdline)
    (hfamily : detectShellFamily host cmdline ≠ .unknown) (hfront : front.head? = some (wide ' '))
    (hclosed : ¬ quoting.EndsOpen front) (hback : back.head? = some (wide ' '))
    (ht : t ∈ quoting.tokens front)
    (hflag : isFlagOf (detectShellFamily host cmdline) (t.map toLower) = true) :
    runsCommand host (cmdline ++ (front ++ back)) = true := by
  have hblank {s : WString} (hs : s.head? = some (wide ' ')) : ∀ d ∈ s.head?, isBlank d = true := by
    intro d hd
    rw [hs] at hd
    obtain rfl := Option.some.inj hd
    decide
  have hadded : (front ++ back).head? = some (wide ' ') := by
    rw [List.head?_append, hfront]
    rfl
  have hargs := (tokens_added hopen (hblank hadded) (not_blank_of_family hfamily)).2
  rw [runsCommand_eq, detectShellFamily_added hopen (hblank hadded) hfamily, hargs,
    Quoting.tokens_append hclosed (hblank hback)]
  refine List.any_eq_true.mpr ⟨_, List.mem_append_right _ (List.mem_map_of_mem ?_), hflag⟩
  exact List.mem_append_left _ ht

/-- What is added for PowerShell. -/
theorem runsCommand_added_powerShell {front back : WString} (hopen : ¬ quoting.EndsOpen cmdline)
    (hfamily : detectShellFamily host cmdline = .powerShell)
    (hfront : front = L " -Command" ∨ front = L " -NoExit -Command")
    (hback : back.head? = some (wide ' ')) : runsCommand host (cmdline ++ (front ++ back)) = true := by
  have hflag : isFlagOf (detectShellFamily host cmdline) ((L "-Command").map toLower) = true := by
    rw [hfamily]
    decide
  rcases hfront with rfl | rfl
  · exact runsCommand_added hopen (by rw [hfamily]; decide) rfl (by decide) hback (by decide) hflag
  · exact runsCommand_added hopen (by rw [hfamily]; decide) rfl (by decide) hback (by decide) hflag

/-- What is added for WSL. -/
theorem runsCommand_added_wsl {back : WString} (hopen : ¬ quoting.EndsOpen cmdline)
    (hfamily : detectShellFamily host cmdline = .wsl) (hback : back.head? = some (wide ' ')) :
    runsCommand host (cmdline ++ (L " --" ++ back)) = true := by
  have hflag : isFlagOf (detectShellFamily host cmdline) ((L "--").map toLower) = true := by
    rw [hfamily]
    decide
  exact runsCommand_added hopen (by rw [hfamily]; decide) rfl (by decide) hback (by decide) hflag

/-- **A command that is to be survived is found again.** -/
theorem runsCommand_wrapped (hopen : ¬ quoting.EndsOpen cmdline)
    (hfamily : detectShellFamily host cmdline = .powerShell ∨ detectShellFamily host cmdline = .wsl)
    (command : WString) : runsCommand host (wrapCommandForSurvival host cmdline command) = true := by
  unfold wrapCommandForSurvival
  rcases hfamily with hps | hwsl
  · have hsplit : cmdline ++ L " -NoExit -Command \"" ++ command ++ L "\"" =
        cmdline ++ (L " -NoExit -Command" ++ (L " \"" ++ command ++ L "\"")) := by
      have hlit : L " -NoExit -Command \"" = L " -NoExit -Command" ++ L " \"" := by decide
      rw [hlit]
      simp only [List.append_assoc]
    simp only [hps]
    rw [hsplit]
    exact runsCommand_added_powerShell hopen hps (Or.inr rfl) rfl
  · have hsplit : cmdline ++ L " -- bash -ic \"" ++ command ++ L "; exec bash -i\"" =
        cmdline ++ (L " --" ++ (L " bash -ic \"" ++ command ++ L "; exec bash -i\"")) := by
      have hlit : L " -- bash -ic \"" = L " --" ++ L " bash -ic \"" := by decide
      rw [hlit]
      simp only [List.append_assoc]
    simp only [hwsl]
    rw [hsplit]
    exact runsCommand_added_wsl hopen hwsl rfl

/-- What the integration adds for PowerShell is found again. -/
theorem runsCommand_powerShellFlags (hopen : ¬ quoting.EndsOpen cmdline)
    (hfamily : detectShellFamily host cmdline = .powerShell) (tokens : List WString)
    (script : WString) : runsCommand host (cmdline ++ powerShellFlags tokens script) = true := by
  have hlit : L " -Command \". '" = L " -Command" ++ L " \". '" := by decide
  have hboth : L " -NoExit" ++ L " -Command" = L " -NoExit -Command" := by decide
  obtain ⟨front, hfront, hsplit⟩ : ∃ front, (front = L " -Command" ∨ front = L " -NoExit -Command") ∧
      powerShellFlags tokens script =
        front ++ (L " \". '" ++ psSingleQuoteEscape script ++ L "'\"") := by
    unfold powerShellFlags
    rw [hlit]
    split_ifs
    · refine ⟨_, Or.inl rfl, ?_⟩
      simp only [List.append_assoc, List.nil_append]
    · refine ⟨_, Or.inr rfl, ?_⟩
      rw [← hboth]
      simp only [List.append_assoc]
  rw [hsplit]
  exact runsCommand_added_powerShell hopen hfamily hfront rfl

/-- What the integration adds for WSL is found again. -/
theorem runsCommand_wslArguments (hopen : ¬ quoting.EndsOpen cmdline)
    (hfamily : detectShellFamily host cmdline = .wsl) (script : WString) :
    runsCommand host (cmdline ++ wslArguments script) = true := by
  have hlit : L " -- bash --rcfile \"" = L " --" ++ L " bash --rcfile \"" := by decide
  have hsplit : wslArguments script =
      L " --" ++ (L " bash --rcfile \"" ++ toWslMntPath script ++ L "\" -i") := by
    rw [wslArguments, hlit]
    simp only [List.append_assoc]
  rw [hsplit]
  exact runsCommand_added_wsl hopen hfamily rfl

/-! ### Nothing is added twice -/

/-- A commandline stays as it is, or is one that runs a command. -/
theorem integrated_cases (state : LocalState) (enabled : Bool) (hopen : ¬ quoting.EndsOpen cmdline)
    (hfamily : detectShellFamily host cmdline = .powerShell ∨ detectShellFamily host cmdline = .wsl) :
    computeShellIntegration host state cmdline enabled = { commandline := cmdline } ∨
      runsCommand host (computeShellIntegration host state cmdline enabled).commandline = true := by
  unfold computeShellIntegration
  split_ifs
  · exact Or.inl rfl
  · rcases hfamily with hps | hwsl
    · simp only [hps]
      split_ifs
      · exact Or.inl rfl
      · split
        next => exact Or.inl rfl
        next script _ => exact Or.inr (runsCommand_powerShellFlags hopen hps _ script)
    · simp only [hwsl]
      split_ifs
      · exact Or.inl rfl
      · split
        next => exact Or.inl rfl
        next script _ => exact Or.inr (runsCommand_wslArguments hopen hwsl script)

/-- **The integration is put into a commandline once**: a command that is to be survived is left
alone, and so is what the integration has made. -/
theorem integrated_once (host : Host) (state : LocalState) (enabled : Bool) {p : WString}
    (hfamily : detectShellFamily host p = .powerShell ∨ detectShellFamily host p = .wsl)
    (hopen : ¬ quoting.EndsOpen p) :
    (∀ c, computeShellIntegration host state (wrapCommandForSurvival host p c) enabled =
      { commandline := wrapCommandForSurvival host p c, applied := false }) ∧
    computeShellIntegration host state (computeShellIntegration host state p enabled).commandline
      enabled = { commandline := (computeShellIntegration host state p enabled).commandline,
                  applied := false } := by
  constructor
  · intro c
    exact computeShellIntegration_of_runsCommand enabled (runsCommand_wrapped hopen hfamily c)
  · rcases integrated_cases state enabled hopen hfamily with hsame | hruns
    · rw [hsame, hsame]
    · exact computeShellIntegration_of_runsCommand enabled hruns

/-- A system whose scripts can be written, and the part of a path behind its last separator. -/
def sampleHost : Host where
  defaultProfile := none
  findProfile := fun _ => none
  userProfile := none
  filename := fun p => (p.reverse.takeWhile (· ≠ wide '\\')).reverse

def sampleState : LocalState where
  shellIntegrationDir := some (L "C:\\axan")
  append := fun p q => p ++ wide '\\' :: q
  materialize := fun _ => true

/-- A quoted executable with an argument. -/
theorem integrated_once_sample :
    computeShellIntegration sampleHost sampleState
        (wrapCommandForSurvival sampleHost (L "\"C:\\p f\\Pwsh.exe\" -x") (L "ssh \"a b\"")) true =
      { commandline :=
          wrapCommandForSurvival sampleHost (L "\"C:\\p f\\Pwsh.exe\" -x") (L "ssh \"a b\""),
        applied := false } ∧
    computeShellIntegration sampleHost sampleState (computeShellIntegration sampleHost sampleState
        (L "\"C:\\p f\\Pwsh.exe\" -x") true).commandline true =
      { commandline := (computeShellIntegration sampleHost sampleState
          (L "\"C:\\p f\\Pwsh.exe\" -x") true).commandline,
        applied := false } := by
  have honce := integrated_once sampleHost sampleState true (p := L "\"C:\\p f\\Pwsh.exe\" -x")
    (by decide) (by decide)
  exact ⟨honce.1 _, honce.2⟩

end Axan.SessionTree
