import DeskCalc.CommandLine.Arguments
import DeskCalc.Source

/-!
# Runs

A run reads its input whole, makes of it the text that was asked for, and hands that text over, on
standard output or in a file; then it reports what went wrong, if anything did.  Only a listing of
the tree is handed over in spite of semantic faults, which are reported behind it.

* `Emit.report`      what is to be said about a text: the output and the failure;
* `Invocation.run`   a run on a disk;
* `Request.run`      any request on a disk, with its exit code.
-/

namespace DeskCalc

/-- the text to hand over and the failure to report behind it -/
structure Report where
  text : Option String := none
  failure : Option String := none
deriving DecidableEq

namespace Report

def success (text : String) : Report := { text := some text }

def failed (message : String) : Report := { failure := some message }

/-- the report of an analysis, or of the fault that prevented it -/
def ofAnalysis (r : Except Fault Analysis) (f : Analysis → Report) : Report :=
  match r with
  | .ok a => f a
  | .error e => failed e.message

/-- the log of an analysis as the failure of a run, if there is anything in it -/
def semanticFailure? (a : Analysis) : Option String :=
  if a.hasFaults then some ("Semantic Error:\n" ++ a.log.render) else none

/-- the report of an analysis without faults, or of its log -/
def ofFaultless (a : Analysis) (f : Analysis → Report) : Report :=
  match semanticFailure? a with
  | some m => failed m
  | none => f a

end Report

/-- what is to be said about a text -/
def Emit.report (text : String) : Emit → Report
  | tokens =>
    match (Reader.ofText text).all.1 with
    | .ok ts => .success (Text.joinWith "\n" (ts.map Token.render))
    | .error f => .failed f.render
  | ast =>
    Report.ofAnalysis (Source.analyze text) fun a =>
      { text := some a.program.render, failure := Report.semanticFailure? a }
  | code =>
    Report.ofAnalysis (Source.analyze text) fun a => Report.ofFaultless a fun a =>
      match a.generate.1 with
      | .ok c => .success c
      | .error f => .failed f.message
  | symbols =>
    Report.ofAnalysis (Source.analyze text) fun a => Report.ofFaultless a fun a =>
      match a.generate with
      | (.ok _, b) => .success b.symbols.render
      | (.error f, _) => .failed f.message

/-! ## On a disk -/

/-- the end of a run -/
structure Finish where
  exit : Nat := 0
  stdout : String := ""
  stderr : String := ""
  disk : Disk

namespace Finish

/-- the end that a failure makes: nothing is handed over -/
def failed (disk : Disk) (message : String) : Finish :=
  { exit := 1, stderr := message ++ "\n", disk := disk }

/-- the end behind a text that was handed over -/
def behind (stdout : String) (disk : Disk) : Option String → Finish
  | none => { stdout := stdout, disk := disk }
  | some m => { exit := 1, stdout := stdout, stderr := m ++ "\n", disk := disk }

end Finish

/-- bytes as text, or the failure of a standard input that is none -/
def standardInput (stdin : ByteArray) : Except String String :=
  match String.fromUTF8? stdin with
  | some text => .ok text
  | none => .error ("failed to read standard input: " ++ FileFault.notText.render)

def writeFailure (path : String) (f : FileFault) : String :=
  "failed to write '" ++ path ++ "': " ++ f.render

namespace Invocation

/-- the text of the input; `-` is the standard input -/
def read (i : Invocation) (disk : Disk) (stdin : ByteArray) : Except String String :=
  if i.input = "-" then standardInput stdin
  else (Source.ofFile disk i.input).mapError Fault.message

/-- hand over the text of a report, then tell its failure -/
def deliver (i : Invocation) (disk : Disk) (r : Report) : Finish :=
  match r.text, i.output with
  | none, _ => .behind "" disk r.failure
  | some t, none => .behind (t ++ "\n") disk r.failure
  | some t, some path =>
    match disk.write path (t ++ "\n") with
    | .ok d => .behind "" d r.failure
    | .error f => .failed disk (writeFailure path f)

def run (i : Invocation) (disk : Disk) (stdin : ByteArray) : Finish :=
  match i.read disk stdin with
  | .error m => .failed disk m
  | .ok text => i.deliver disk (i.emit.report text)

end Invocation

namespace Request

def versionText : String := "acdc-cli 0.1.0\n"

def usageText : String :=
  "Usage: [-o|--output PATH] [--emit code|tokens|ast|symbols] [-v|--verbose]... INPUT\n"

/-- any request on a disk -/
def run (disk : Disk) (stdin : ByteArray) : Request → Finish
  | compile i => i.run disk stdin
  | version => { stdout := versionText, disk := disk }
  | help => { stdout := usageText, disk := disk }
  | misuse => { exit := 2, stderr := usageText, disk := disk }

end Request
end DeskCalc
