/-
Threads.

A thread is asked of the system under a name.  What the system answers is its own business, so
whoever asks takes the answer from outside, as the readings of the clock are.  A name that holds a
NUL cannot be told to the system at all: asking for a thread under it is a panic.
-/

namespace Durable

/-- What the system answers when a thread is asked for: it is made, or the text says why not. -/
inductive Spawn where
  | made
  | refused (cause : String)
deriving DecidableEq, Repr

/-- Why no thread was made. -/
def Spawn.cause? : Spawn → Option String
  | made => none
  | refused cause => some cause

/-- The text of the panic that comes of a thread's name that holds a NUL.  It tells the offset of
the first one and the bytes of the name. -/
def threadFault? (name : String) : Option String :=
  let bytes := name.toList.flatMap String.utf8EncodeChar
  (bytes.idxOf? 0).map fun offset =>
    "thread name may not contain interior null bytes: NulError(" ++ toString offset ++ ", ["
      ++ ", ".intercalate (bytes.map toString) ++ "])"

end Durable
