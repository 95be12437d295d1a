import Literate.Language.Registry
import Literate.Region.Mode

/-!
# Configuration

A configuration holds named settings and associated extensions.  Three settings have a meaning: the
word of the directive, the editor mode and whether to log verbosely.  A setting that is missing or
makes no sense is as good as none.
-/

namespace Literate

/-- The value of a setting. -/
inductive Setting where
  | flag (value : Bool)
  | text (value : Text)
  deriving DecidableEq, Repr

structure Config where
  /-- Language names under extensions. -/
  associations : Dictionary Text := []
  settings : Dictionary Setting := []
  deriving DecidableEq, Repr

namespace Config

def associate (config : Config) (extension language : Text) : Config :=
  { config with associations := config.associations.assign extension language }

def set (config : Config) (key : Text) (value : Setting) : Config :=
  { config with settings := config.settings.assign key value }

def get? (config : Config) (key : Text) : Option Setting :=
  config.settings.get? key

/-- The setting, if it is a flag. -/
def flag? (config : Config) (key : Text) : Option Bool :=
  match config.get? key with
  | some (.flag value) => some value
  | _ => none

/-- The setting, if it is a text. -/
def text? (config : Config) (key : Text) : Option Text :=
  match config.get? key with
  | some (.text value) => some value
  | _ => none

/-- The word of the directive; an empty one counts as none. -/
def directiveWord (config : Config) : Text :=
  ((config.text? "directive").filter (!·.isEmpty)).getD defaultDirective

/-- The editor mode; an unknown name counts as none. -/
def mode (config : Config) : EditorMode :=
  ((config.text? "mode").bind EditorMode.ofName?).getD .edit

def verbose (config : Config) : Bool :=
  (config.flag? "verbose").getD false

/-- The registry with the configured word and associations. -/
def registry (config : Config) : Registry :=
  config.associations.foldl (fun registry (extension, language) =>
    registry.associate extension language) { word := config.directiveWord }

/-- The associations that come with the program, consulted after the table. -/
def standardAssociations : List (Text × Text) :=
  [("hpp", "c_cpp"), ("hh", "c_cpp"), ("hxx", "c_cpp"), ("cxx", "c_cpp"), ("ino", "c_cpp"),
    ("jsx", "javascript"), ("tsx", "javascript"), ("mts", "javascript"),
    ("xhtml", "html"), ("scss", "css"),
    ("pyw", "python"), ("zsh", "shell"), ("ksh", "shell"),
    ("svh", "verilog"), ("vh", "verilog")]

/-- Apply the settings and associations that come with the program. -/
def configure (config : Config) : Config :=
  let config := config.set "directive" (.text defaultDirective)
  let config := config.set "mode" (.text EditorMode.edit.name)
  let config := config.set "verbose" (.flag false)
  standardAssociations.foldl (fun config (extension, language) =>
    config.associate extension language) config

end Config

end Literate
