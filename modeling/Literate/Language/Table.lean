import Literate.Language.Basic

/-!
# The language table

The languages in the order in which they claim extensions: the first to claim an extension has it,
so `v` belongs to Verilog, and a V source says so in a directive.
-/

namespace Literate

namespace Heredoc

/-- A here-document of the shell, which ends at a line that starts with its delimiter. -/
def shell (start : Text) (shape : Shape) (startEnd stopIndent : Text) : Heredoc :=
  { lead := .commandBreak, start, shape, startEnd, stop := "\n", stopIndent }

/-- A bare or quoted delimiter, and the same with tabs allowed before the closing delimiter. -/
def shellRules : List Heredoc :=
  [shell "<<" .word "" "",
    shell "<<'" (.quoted '\x27') "'" "",
    shell "<<\"" (.quoted '\x22') "\"" "",
    shell "<<-" .word "" "\t",
    shell "<<-'" (.quoted '\x27') "'" "\t",
    shell "<<-\"" (.quoted '\x22') "\"" "\t"]

/-- A raw string of C++. -/
def rawString : Heredoc :=
  { start := "R\"", shape := .short, startEnd := "(", stop := ")", stopEnd := "\"" }

end Heredoc

namespace Language

def cCpp : Language where
  name := "c_cpp"
  extensions := ["cc", "cpp", "c", "h"]
  inlineComments := ["//"]
  blockComments := [("/*", "*/")]
  shortStrings := ["\""]
  heredocs := [Heredoc.rawString]

/-- Its comments can be read as documentation, but documentation cannot be written back. -/
def css : Language where
  name := "css"
  extensions := ["css"]
  blockComments := [("/*", "*/")]
  shortStrings := ["\"", "'"]

def go : Language where
  name := "go"
  extensions := ["go"]
  inlineComments := ["//"]
  blockComments := [("/*", "*/")]
  longStrings := ["`"]
  shortStrings := ["\"", "'"]

def html : Language where
  name := "html"
  extensions := ["html", "htm"]
  blockComments := [("<!--", "-->")]

def javascript : Language where
  name := "javascript"
  extensions := ["js", "mjs", "cjs", "ts"]
  inlineComments := ["//"]
  blockComments := [("/*", "*/")]
  shortStrings := ["\"", "'"]
  templates := true

def python : Language where
  name := "python"
  extensions := ["py", "pyi"]
  inlineComments := ["#"]
  longStrings := ["\"\"\"", "'''"]
  shortStrings := ["\"", "'"]

/-- A single quote opens no string: it marks a lifetime as often as a character. -/
def rust : Language where
  name := "rust"
  extensions := ["rs"]
  inlineComments := ["//"]
  blockComments := [("/*", "*/")]
  shortStrings := ["\""]

def shell : Language where
  name := "shell"
  extensions := ["sh", "bash"]
  inlineComments := ["#"]
  shortStrings := ["\"", "'"]
  heredocs := Heredoc.shellRules

def toml : Language where
  name := "toml"
  extensions := ["toml"]
  inlineComments := ["#"]
  longStrings := ["\"\"\"", "'''"]
  shortStrings := ["\"", "'"]

def verilog : Language where
  name := "verilog"
  extensions := ["v", "sv"]
  inlineComments := ["//"]
  blockComments := [("/*", "*/")]
  shortStrings := ["\""]

def vlang : Language where
  name := "vlang"
  extensions := ["v"]
  inlineComments := ["//"]
  blockComments := [("/*", "*/")]
  shortStrings := ["\"", "'"]

/-- A document that is nothing but documentation. -/
def document : Language where
  name := "litdoc-html"
  extensions := ["lithtml"]
  docOnly := true

/-- Every language, in the order of resolution. -/
def table : List Language :=
  [cCpp, css, go, html, javascript, python, rust, shell, toml, verilog, vlang, document]

/-- The language of the table with the given name. -/
def named? (name : Text) : Option Language :=
  table.find? (·.name == name)

/-- The first language of the table that claims the extension. -/
def claiming? (extension : Text) : Option Language :=
  table.find? (·.claims extension)

end Language

end Literate
