import Axan.Base.Settings

/-!
# The schemas of the Linux settings

The keys of `sh.axan.Axan.gschema.xml` with their types, ranges and defaults.
-/

namespace Axan.LinuxToml

open Axan.Base.Settings

/-! ### Kinds of keys -/

/-- A key of type `b`. -/
def flag (name : String) (default : Bool) : KeySpec :=
  { name := name.toList, type := .boolean, default := .boolean default }

/-- A key of type `s`. -/
def str (name default : String) : KeySpec :=
  { name := name.toList, type := .string, default := .string default.toList }

/-- A key of type `ms`, not set by default. -/
def maybeStr (name : String) : KeySpec :=
  { name := name.toList, type := .maybeString, default := .maybeString none }

/-- A key of type `mb`, not set by default. -/
def maybeFlag (name : String) : KeySpec :=
  { name := name.toList, type := .maybeBoolean, default := .maybeBoolean none }

/-- A key of type `i`. -/
def int32 (name : String) (range : Range) (default : ℤ) : KeySpec :=
  { name := name.toList, type := .integer .int32, range := range
    default := .integer .int32 default }

/-- A key of type `u`. -/
def uint32 (name : String) (default : ℤ) : KeySpec :=
  { name := name.toList, type := .integer .uint32, default := .integer .uint32 default }

/-- A key of type `d`. -/
def dbl (name : String) (min max default : ℚ) : KeySpec :=
  { name := name.toList, type := .double, range := .doubles min max
    default := .double (.finite default) }

/-- A key of type `as`. -/
def strs (name : String) (default : List String) : KeySpec :=
  { name := name.toList, type := .stringArray
    default := .stringArray (default.map String.toList) }

/-- A key with an enumeration. -/
def choice (name : String) (nicks : List String) (default : String) : KeySpec :=
  { name := name.toList, type := .string, range := .choices nicks
    default := .string default.toList }

/-- A key of type `a(ssssssss)`. -/
def launchEntries (name : String) : KeySpec :=
  { name := name.toList, type := .stringTuples 8, default := .stringTuples [] }

/-! ### Enumerations -/

def scrollbarPolicy : List String := ["always", "never"]
def exitAction : List String := ["close", "restart", "hold"]
def preserveWorkingDirectory : List String := ["never", "safe", "always"]
def cursorBlinkMode : List String := ["system", "on", "off"]
def cursorShape : List String := ["block", "ibeam", "underline"]
def textBlinkMode : List String := ["never", "focused", "unfocused", "always"]
def eraseBinding : List String := ["auto", "ascii-backspace", "ascii-delete", "delete-sequence", "tty"]
def cjkWidth : List String := ["narrow", "wide"]
def newTerminalMode : List String := ["window", "tab"]
def tabsbarPolicy : List String := ["always", "automatic"]
def tabPosition : List String := ["top", "bottom"]
def themeVariant : List String := ["system", "light", "dark"]
def newTabPosition : List String := ["last", "next"]
def sidebarState : List String := ["expanded", "collapsed", "minimized"]
def startupSidebarState : List String := ["last-used", "expanded", "collapsed", "minimized"]
def collapsedSize : List String := ["small", "medium", "large"]

/-- The default colors. -/
def defaultPalette : List String :=
  ["#171421", "#c01c28", "#26a269", "#a2734c", "#12488b", "#a347ba", "#2aa1b3", "#d0cfcc",
    "#5e5c64", "#f66151", "#33da7a", "#e9ad0c", "#2a7bde", "#c061cb", "#33c7de", "#ffffff"]

/-! ### Schemas -/

/-- `sh.axan.Axan.Legacy.Profile` -/
def profileSchema : Schema where
  keys :=
    [ str "visible-name" "Unnamed", str "foreground-color" "#171421",
      str "background-color" "#ffffff", str "bold-color" "#000000",
      flag "bold-color-same-as-fg" true, dbl "cell-height-scale" 1 2 1,
      dbl "cell-width-scale" 1 2 1, flag "cursor-colors-set" false,
      str "cursor-background-color" "#000000", str "cursor-foreground-color" "#ffffff",
      flag "highlight-colors-set" false, str "highlight-background-color" "#000000",
      str "highlight-foreground-color" "#ffffff", flag "enable-bidi" true,
      flag "enable-shaping" true, flag "enable-sixel" false, flag "bold-is-bright" false,
      flag "audible-bell" true, maybeStr "word-char-exceptions",
      int32 "default-size-columns" (.integers 16 511) 80,
      int32 "default-size-rows" (.integers 4 511) 24,
      choice "scrollbar-policy" scrollbarPolicy "always", int32 "scrollback-lines" .any 10000,
      flag "scrollback-unlimited" false, flag "scroll-on-insert" true,
      flag "scroll-on-keystroke" true, flag "scroll-on-output" false,
      choice "exit-action" exitAction "close", flag "login-shell" false,
      choice "preserve-working-directory" preserveWorkingDirectory "safe",
      flag "use-custom-command" false, choice "cursor-blink-mode" cursorBlinkMode "system",
      choice "cursor-shape" cursorShape "block", choice "text-blink-mode" textBlinkMode "always",
      str "custom-command" "", launchEntries "default-launch-entries",
      strs "palette" defaultPalette,
      str "font" "Monospace 12", choice "backspace-binding" eraseBinding "ascii-delete",
      choice "delete-binding" eraseBinding "delete-sequence", flag "use-theme-colors" true,
      flag "use-system-font" true, flag "rewrap-on-resize" true, str "encoding" "UTF-8",
      choice "cjk-utf8-ambiguous-width" cjkWidth "narrow" ]
  nodup := by decide

/-- `sh.axan.Axan.ProfilesList` -/
def profilesListSchema : Schema where
  keys :=
    [ strs "list" ["b1dcc9dd-5262-4d8d-a863-c897e6d979b9"],
      str "default" "b1dcc9dd-5262-4d8d-a863-c897e6d979b9" ]
  nodup := by decide

/-- `sh.axan.Axan.Legacy.Settings` -/
def settingsSchema : Schema where
  keys :=
    [ flag "mnemonics-enabled" false, flag "shortcuts-enabled" true,
      flag "menu-accelerator-enabled" true, flag "shell-integration-enabled" true,
      flag "confirm-close" true, strs "context-info" ["numbers"], flag "default-show-menubar" true,
      choice "new-terminal-mode" newTerminalMode "window",
      choice "tab-policy" tabsbarPolicy "automatic", choice "tab-position" tabPosition "top",
      choice "theme-variant" themeVariant "system",
      choice "new-tab-position" newTabPosition "last",
      choice "sidebar-state" sidebarState "expanded",
      choice "startup-sidebar-state" startupSidebarState "last-used",
      choice "collapsed-size" collapsedSize "small", flag "auto-assign-icon" false,
      flag "show-icons-in-expanded" true, flag "recolor-icons" true,
      flag "always-check-default-terminal" true, maybeFlag "headerbar", flag "unified-menu" true,
      uint32 "schema-version" 4 ]
  nodup := by decide

/-- The keybindings with their defaults. -/
def keybindings : List (String × String) :=
  [ ("new-tab", "<Control><Shift>t"), ("new-window", "<Control><Shift>n"),
    ("save-contents", "disabled"), ("export", "disabled"), ("print", "disabled"),
    ("close-tab", "<Control><Shift>w"), ("close-window", "<Control><Shift>q"),
    ("copy", "<Control><Shift>c"), ("copy-html", "disabled"), ("paste", "<Control><Shift>v"),
    ("select-all", "disabled"), ("preferences", "disabled"), ("full-screen", "F11"),
    ("toggle-menubar", "disabled"), ("read-only", "disabled"), ("reset", "disabled"),
    ("reset-and-clear", "disabled"), ("find", "<Control><Shift>F"),
    ("find-next", "<Control><Shift>G"), ("find-previous", "<Control><Shift>H"),
    ("find-clear", "<Control><Shift>J"), ("prev-tab", "<Control>Page_Up"),
    ("next-tab", "<Control>Page_Down"), ("move-tab-left", "<Control><Shift>Page_Up"),
    ("move-tab-right", "<Control><Shift>Page_Down"), ("detach-tab", "disabled"),
    ("switch-to-tab-1", "<Alt>1"), ("switch-to-tab-2", "<Alt>2"), ("switch-to-tab-3", "<Alt>3"),
    ("switch-to-tab-4", "<Alt>4"), ("switch-to-tab-5", "<Alt>5"), ("switch-to-tab-6", "<Alt>6"),
    ("switch-to-tab-7", "<Alt>7"), ("switch-to-tab-8", "<Alt>8"), ("switch-to-tab-9", "<Alt>9"),
    ("switch-to-tab-10", "<Alt>0"), ("switch-to-tab-11", "disabled"),
    ("switch-to-tab-12", "disabled"), ("switch-to-tab-13", "disabled"),
    ("switch-to-tab-14", "disabled"), ("switch-to-tab-15", "disabled"),
    ("switch-to-tab-16", "disabled"), ("switch-to-tab-17", "disabled"),
    ("switch-to-tab-18", "disabled"), ("switch-to-tab-19", "disabled"),
    ("switch-to-tab-20", "disabled"), ("switch-to-tab-21", "disabled"),
    ("switch-to-tab-22", "disabled"), ("switch-to-tab-23", "disabled"),
    ("switch-to-tab-24", "disabled"), ("switch-to-tab-25", "disabled"),
    ("switch-to-tab-26", "disabled"), ("switch-to-tab-27", "disabled"),
    ("switch-to-tab-28", "disabled"), ("switch-to-tab-29", "disabled"),
    ("switch-to-tab-30", "disabled"), ("switch-to-tab-31", "disabled"),
    ("switch-to-tab-32", "disabled"), ("switch-to-tab-33", "disabled"),
    ("switch-to-tab-34", "disabled"), ("switch-to-tab-35", "disabled"),
    ("switch-to-tab-last", "disabled"), ("help", "disabled"), ("zoom-in", "<Control>plus"),
    ("zoom-out", "<Control>minus"), ("zoom-normal", "<Control>0"), ("header-menu", "disabled"),
    ("cycle-sidebar", "<Control><Shift>b") ]

/-- `sh.axan.Axan.Legacy.Keybindings` -/
def keybindingsSchema : Schema where
  keys := keybindings.map fun k => str k.1 k.2
  nodup := by
    have hnames : (keybindings.map Prod.fst).Nodup := by decide
    rw [List.map_map]
    have hmap : (KeySpec.name ∘ fun k : String × String => str k.1 k.2) = String.toList ∘ Prod.fst :=
      rfl
    rw [hmap, ← List.map_map]
    exact hnames.map fun _ _ => String.toList_inj.mp

/-! ### Defaults -/

/-- Every default passes the check of its key. -/
theorem profileSchema_defaults : ∀ k ∈ profileSchema.keys, k.accepts k.default = true := by
  decide +kernel

/-- The list of profiles accepts its defaults. -/
theorem profilesListSchema_defaults :
    ∀ k ∈ profilesListSchema.keys, k.accepts k.default = true := by decide

theorem settingsSchema_defaults : ∀ k ∈ settingsSchema.keys, k.accepts k.default = true := by
  decide

theorem keybindingsSchema_defaults :
    ∀ k ∈ keybindingsSchema.keys, k.accepts k.default = true := by
  intro k hk
  obtain ⟨p, hp, rfl⟩ := List.mem_map.mp hk
  have hnul : ∀ p ∈ keybindings, nulFree p.2.toList = true := by decide
  simp only [KeySpec.accepts, str, Variant.hasType, hnul p hp, Range.accepts, Bool.and_true]

end Axan.LinuxToml
