import Packrat.Engine.Invoke

/-!
# Parsing a text

A parser is a prepared grammar with a configuration. Parsing matches the root at the start of the
text with fresh state. A text that does not match is an answer with a report; only limits, broken
extensions and broken promises are faults.

* **`Parser.make`** — refuse a grammar that is not prepared or has no root.
* **`Parser.parse`** — the outcome for a text, with the log of the parse.
-/

namespace Packrat

/-- A prepared grammar with a configuration. -/
structure Parser where
  grammar : Grammar
  root : ExprId
  config : Config

/-- What matching a text gave. -/
structure ParseResult where
  /-- The root matched all of the text. -/
  matched : Bool
  /-- The root matched, perhaps only the beginning of the text. -/
  succeeded : Bool
  /-- Where the match ended, 0 if there was none. -/
  stop : Nat
  tree : CaptureNode
  /-- What was expected, if not all of the text was matched. -/
  report : Option Report
  tally : Tally

/-- The outcome of a parse with its log, the earliest entry first. -/
structure Parsed where
  outcome : Except Fault ParseResult
  log : List LogEntry

namespace Parser

/-- A parser for a prepared grammar. -/
def make (g : Grammar) (config : Config) : Except Fault Parser :=
  if g.prepared then
    match g.root with
    | some root => .ok { grammar := g, root, config }
    | none => .error (.grammar (.missingRoot "<unset>"))
  else .error (.grammar .unprepared)

/-- What a parse reads. -/
def setting (p : Parser) (text : Text) : Setting :=
  { grammar := p.grammar, text, config := p.config }

/-- The report of a match that did not take all of the text and ended at `stop`: the recorded
    failure unless it lies before `stop`, else that the input should have ended. -/
def reportFor (p : Parser) (text : Text) (failures : Failures) (stop : Nat) :
    Except Fault Report := do
  let missing := Report.make text stop ["end of input"]
  match ← failures.report p.grammar text with
  | some report => return if stop ≤ report.position then report else missing
  | none => return missing

/-- The result of a match that left the machine `m`. -/
def conclude (p : Parser) (text : Text) (succeeded : Bool) (m : Machine) :
    Except Fault ParseResult := do
  let stop := if succeeded then m.state.stop else 0
  let matched := succeeded && stop == text.length
  let report ← if matched then pure none else some <$> p.reportFor text m.failures stop
  return {
    matched, succeeded, stop, report
    tree := .root 0 stop m.state.captures.nodes
    tally := m.tally }

/-- Match the root at the start of the text. -/
def run (p : Parser) (text : Text) : EStateM.Result Fault Machine Bool :=
  Engine.invoke (p.setting text) p.config.maxDepth p.root (.initial p.config)

/-- Parse a text. -/
def parse (p : Parser) (source : String) : Parsed :=
  let text := Text.ofString source
  match p.run text with
  | .ok succeeded m => { outcome := p.conclude text succeeded m, log := m.log.reverse }
  | .error e m => { outcome := .error e, log := m.log.reverse }

end Parser

/-- Parse a text with a grammar in one go. -/
def parseWith (g : Grammar) (config : Config) (source : String) : Parsed :=
  match Parser.make g config with
  | .ok parser => parser.parse source
  | .error e => { outcome := .error e, log := [] }

end Packrat
