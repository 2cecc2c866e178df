import Milling.Block.Comment
import Milling.Decimal.Layout
import Milling.Lint.Issue
import Milling.Lint.Pattern
/-!
Checking a program line by line for unsupported codes and risky moves.

The checker remembers whether the last motion code was a cutting one, the last feed rate and the
last height. Blank lines, lines that start with a comment and lines that start with a percent sign
are passed over, and so are lines with nothing but comments.
-/

namespace Milling.Lint

/-- The G words that machines of this kind understand. -/
def supportedG : List String :=
  ["G0", "G00", "G1", "G01", "G2", "G02", "G3", "G03", "G17", "G20", "G21", "G90", "G91"]

/-- The M words that machines of this kind understand. -/
def supportedM : List String :=
  ["M0", "M1", "M2", "M3", "M4", "M5", "M6", "M8", "M9", "M30"]

def cuttingG : List String :=
  ["G1", "G01", "G2", "G02", "G3", "G03"]

def rapidG : List String :=
  ["G0", "G00"]

/-- The code of a line to check, `none` if the line is passed over. -/
def activeCode (line : List Char) : Option (List Char) :=
  match Text.trim line with
  | [] => none
  | c :: rest =>
    if c == '(' || c == ';' || c == '%' then none
    else
      let code := Block.code (c :: rest)
      if code.isEmpty then none else some code

/-- What the checker remembers from line to line. -/
structure Memory where
  cutting : Bool
  feed : Option Float
  height : Option Float
deriving Inhabited

def Memory.initial : Memory := ⟨false, none, none⟩

/-- Whether cutting is on after G words. -/
def cuttingAfter (before : Bool) (gs : List String) : Bool :=
  gs.foldl (fun on word =>
    if cuttingG.contains word then true else if rapidG.contains word then false else on) before

def Memory.next (m : Memory) (code : List Char) : Memory :=
  { cutting := cuttingAfter m.cutting (codeWords 'G' code)
    feed := (feed? code).or m.feed
    height := (height? code).or m.height }

/-- A warning for a code word that is not supported. -/
def unsupported (line : Nat) (letter : String) (word : String) : Issue :=
  ⟨line, .warning, "Unsupported " ++ letter ++ "-code: " ++ word, word⟩

def codeIssues (line : Nat) (code : List Char) : List Issue :=
  ((codeWords 'G' code).filter (!supportedG.contains ·)).map (unsupported line "G") ++
    ((codeWords 'M' code).filter (!supportedM.contains ·)).map (unsupported line "M")

/-- A warning for a cutting move before any feed rate. -/
def feedIssues (line : Nat) (after : Memory) (code : List Char) : List Issue :=
  if after.cutting && after.feed.isNone && hasMovement code then
    [⟨line, .warning, "Cutting move without feed rate specified", "MISSING_FEED"⟩]
  else []

/-- The line moves at rapid speed: it has the rapid word, or no G word at all while cutting is
off. -/
def isRapidLine (after : Memory) (code : List Char) : Bool :=
  hasRapidWord code || ((codeWords 'G' code).isEmpty && !after.cutting)

/-- A warning for a rapid move below zero and below the height before it. -/
def plungeIssues (line : Nat) (before after : Memory) (code : List Char) : List Issue :=
  match height? code, before.height with
  | some z, some last =>
    if isRapidLine after code && z < 0.0 && z < last then
      [⟨line, .warning,
        "Rapid plunge detected: Z" ++ Decimal.inMessage.write z ++ " (consider using G1)",
        "RAPID_PLUNGE"⟩]
    else []
  | _, _ => []

def characterIssues (line : Nat) (code : List Char) : List Issue :=
  if code.all isAllowed then []
  else [⟨line, .error, "Malformed command syntax", "SYNTAX_ERROR"⟩]

def lineIssues (line : Nat) (before : Memory) (code : List Char) : List Issue :=
  let after := before.next code
  codeIssues line code ++ feedIssues line after code ++ plungeIssues line before after code ++
    characterIssues line code

/-- A check in progress. -/
structure Pass where
  issues : Array Issue
  memory : Memory
deriving Inhabited

def Pass.initial : Pass := ⟨#[], .initial⟩

/-- Checks one line, given with its index from 0. -/
def Pass.line (s : Pass) (numbered : List Char × Nat) : Pass :=
  match activeCode numbered.1 with
  | none => s
  | some code =>
    ⟨s.issues ++ lineIssues (numbered.2 + 1) s.memory code, s.memory.next code⟩

def check (source : String) : Report :=
  let lines := (source.toList.splitOn '\n').zipIdx
  .ofIssues (lines.foldl Pass.line .initial).issues.toList

end Milling.Lint
