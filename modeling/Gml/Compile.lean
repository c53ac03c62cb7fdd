import Gml.Assembly
import Gml.Batch
import Gml.Code.Generate.Statement
import Gml.Token.Lexer
import Gml.Tree.Parser.Statement
import Gml.Tree.Scope

/-!
# Compilation

A script is compiled in four stages, of which each takes what the one before gives: text to tokens,
tokens to a tree, a tree whose names are looked up, and code. A fifth stage writes the code as
bytes.

The scripts of a batch are compiled in a context that they share, each as it would be alone.
-/

namespace Gml

/-- Compiles a script to code. -/
def compileToCode (text : String) (context : Context) : Except Diagnostic Code := do
  let script ← Script.parse text context.versionTier
  (← script.resolve context).generate

/-- Compiles a script to bytes. -/
def compile (text : String) (context : Context) : Except Diagnostic Assembly := do
  (← compileToCode text context).assemble context.encoding

namespace Batch

/-- Compiles several scripts to code. -/
def toCode (files : List ScriptFile) (context : Context) : List (Except Diagnostic Code) :=
  run (fun file => some (compileToCode file.text context)) files

/-- Compiles several scripts to bytes. -/
def toBytes (files : List ScriptFile) (context : Context) : List (Except Diagnostic Assembly) :=
  run (fun file => some (compile file.text context)) files

end Batch

end Gml
