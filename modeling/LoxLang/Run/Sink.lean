import LoxLang.Fault

/-!
# Output sinks

A sink holds the bytes printed so far and may have a limit to how many it holds. Writing keeps the bytes
that fit, and is a fault if some do not; a sink may also refuse to be flushed.
-/

namespace LoxLang

/-- Where printed bytes go. -/
structure Sink where
  held : ByteArray
  /-- The greatest number of bytes that are held, if there is one. -/
  limit : Option Nat
  /-- Whether every flush is a fault. -/
  refusesFlush : Bool

namespace Sink

/-- A sink that takes everything. -/
def unlimited : Sink := ⟨.empty, none, false⟩

/-- How many of `n` more bytes fit. -/
def fitting (s : Sink) (n : Nat) : Nat :=
  match s.limit with
  | none => n
  | some limit => min n (limit - s.held.size)

/-- Adds the bytes that fit. -/
def write (s : Sink) (bytes : ByteArray) : Except OutputCause Unit × Sink :=
  let n := s.fitting bytes.size
  if n = bytes.size then (.ok (), { s with held := s.held ++ bytes })
  else (.error .full, { s with held := s.held ++ bytes.extract 0 n })

/-- Asks for what is held to be passed on. -/
def flush (s : Sink) : Except OutputCause Unit :=
  if s.refusesFlush then .error .unflushed else .ok ()

end Sink

end LoxLang
