/-
LazyExpr/Sink.lean

Where printed text goes.
-/
namespace LazyExpr

/-- The destination of printed text: kept in a buffer, or dropped. -/
inductive Sink where
  | buffer (text : String)
  | silent
deriving DecidableEq, Inhabited, Repr

namespace Sink

/-- A buffer without text. -/
def emptyBuffer : Sink := buffer ""

def write : Sink → String → Sink
  | buffer kept, text => buffer (kept ++ text)
  | silent, _ => silent

def writeLine (s : Sink) (text : String) : Sink := (s.write text).write "\n"

/-- The text kept so far. -/
def text : Sink → String
  | buffer kept => kept
  | silent => ""

/-- The sink with no text kept. -/
def clear : Sink → Sink
  | buffer _ => emptyBuffer
  | silent => silent

end Sink

end LazyExpr
