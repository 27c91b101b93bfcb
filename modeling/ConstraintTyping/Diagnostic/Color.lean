/-!
# Terminal colors

Escape sequences shared by the renderer of diagnostics and by the printer of types, which marks
where two types differ.
-/

namespace ConstraintTyping

/-- When output is colored. -/
inductive ColorMode where
  /-- Only on a terminal. -/
  | auto
  | always
  | never
deriving DecidableEq, Repr, Inhabited

/-- Whether to color, given whether the output is a terminal. -/
def ColorMode.enabled (mode : ColorMode) (isTerminal : Bool) : Bool :=
  match mode with
  | .auto => isTerminal
  | .always => true
  | .never => false

namespace Color

/-- Bold red, for errors. -/
def error : String := "\x1b[1;31m"

/-- Bold yellow, for warnings. -/
def warning : String := "\x1b[1;33m"

/-- Bold cyan, for notes. -/
def note : String := "\x1b[1;36m"

/-- Bold green, for suggestions. -/
def help : String := "\x1b[1;32m"

/-- Bold, without a color. -/
def bold : String := "\x1b[1m"

/-- Bold blue, for context labels. -/
def secondary : String := "\x1b[1;34m"

/-- Bold red, for the parts in which two types differ. -/
def differs : String := "\x1b[1;31m"

/-- Dim, for the parts two types share. -/
def shared : String := "\x1b[2m"

/-- Ends any coloring. -/
def reset : String := "\x1b[0m"

/-- `text` in a color, or as it is when coloring is off. -/
def paint (enabled : Bool) (color text : String) : String :=
  if enabled then color ++ text ++ reset else text

end Color

end ConstraintTyping
