import Lox.Diagnostic

/-!
Diagnostics as text. The human layout spends a paragraph on each diagnostic and
ends with a count; the short layout is one line for each.
-/

namespace Lox

inductive ColorMode where
  | auto | always | never
  deriving DecidableEq, Repr

def ColorMode.ofName? : String → Option ColorMode
  | "auto" => some .auto
  | "always" => some .always
  | "never" => some .never
  | _ => none

def ColorMode.colored (mode : ColorMode) (terminal : Bool) : Bool :=
  match mode with
  | .auto => terminal
  | .always => true
  | .never => false

inductive Layout where
  | human | short
  deriving DecidableEq, Repr

def Layout.ofName? : String → Option Layout
  | "human" => some .human
  | "short" => some .short
  | _ => none

/-- How diagnostics are shown. -/
structure Style where
  layout : Layout
  colored : Bool
  deriving DecidableEq, Repr

namespace Style

def paint (style : Style) (color text : String) : String :=
  if style.colored then s!"\x1b[{color}m{text}\x1b[0m" else text

def error (style : Style) : String := style.paint "1;31" "error"

def short (diagnostic : Diagnostic) : String :=
  let line := match diagnostic.line with
    | some line => s!"[line {line}] "
    | none => ""
  let kind := match diagnostic.code.phase with
    | .running => "runtime error"
    | _ => "error"
  let location := match diagnostic.location with
    | some location => s!" {location}"
    | none => ""
  s!"{line}{kind}{location}: {diagnostic.message}\n"

/-- A location is only shown next to its line. -/
def human (style : Style) (diagnostic : Diagnostic) : String :=
  let code := style.paint "1" s!"[{diagnostic.code.name}]"
  let arrow := style.paint "1;34" "-->"
  let line := match diagnostic.line, diagnostic.location with
    | some line, some location => s!"  {arrow} line {line}, {location}\n"
    | some line, none => s!"  {arrow} line {line}\n"
    | none, _ => ""
  let label := style.paint "1" "note"
  let notes := diagnostic.notes.map fun note => s!"  = {label}: {note}\n"
  s!"{style.error}{code}: {diagnostic.message}\n{line}{String.join notes}\n"

def one (style : Style) (diagnostic : Diagnostic) : String :=
  match style.layout with
  | .human => style.human diagnostic
  | .short => short diagnostic

def summary (style : Style) (count : Nat) : String :=
  match style.layout, count with
  | .short, _ | .human, 0 => ""
  | .human, 1 => s!"{style.error}: aborting due to previous error\n"
  | .human, _ => s!"{style.error}: aborting due to {count} previous errors\n"

def all (style : Style) (diagnostics : List Diagnostic) : String :=
  String.join (diagnostics.map style.one)

/-- Everything that is shown for the diagnostics of one source. -/
def report (style : Style) (diagnostics : List Diagnostic) : String :=
  style.all diagnostics ++ style.summary diagnostics.length

end Style
end Lox
