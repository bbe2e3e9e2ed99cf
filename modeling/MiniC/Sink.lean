import MiniC.Fault

/-!
# Where output goes

A sink is given texts one after the other and in the end told that there are no more. It takes a
text whole or refuses it, some of its bytes apart. What it does may depend on all the texts before.
-/

namespace MiniC

inductive Sink.Answer where
  | taken
  /-- All but the first bytes are refused. -/
  | refused (bytes : Nat) (refusal : Refusal)

structure Sink where
  written : ByteArray
  /-- The texts so far, the last one first. -/
  given : List String
  answer : (given : List String) → (text : String) → Sink.Answer
  /-- Why the output behind the texts cannot be ended, if it cannot. -/
  close : (given : List String) → Option Refusal

namespace Sink

variable (capacity : Nat) (full : Refusal) (close : List String → Option Refusal := fun _ => none)

def unlimited : Sink :=
  ⟨.empty, [], fun _ _ => .taken, close⟩

def total (given : List String) : Nat :=
  given.foldr (·.utf8ByteSize + ·) 0

def answerUpTo (given : List String) (text : String) : Answer :=
  let room := capacity - total given
  if text.utf8ByteSize ≤ room then .taken else .refused room full

def limited : Sink :=
  ⟨.empty, [], answerUpTo capacity full, close⟩

def take (sink : Sink) (text : String) (bytes : ByteArray) : Sink :=
  { sink with written := sink.written ++ bytes, given := text :: sink.given }

/-- Writes a text: the sink afterwards, and why the text has been refused if it has. -/
def write (sink : Sink) (text : String) : Sink × Option Refusal :=
  match sink.answer sink.given text with
  | .taken => (sink.take text text.toUTF8, none)
  | .refused bytes refusal => (sink.take text (text.toUTF8.extract 0 bytes), some refusal)

def flush (sink : Sink) : Option Refusal :=
  sink.close sink.given

end Sink

end MiniC
