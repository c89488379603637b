import SszArchive.Log
import SszArchive.Store.Fault

/-!
Stores of payloads by identifier, as operations on a state. Asking and loading leave the state as
it is; saving returns the new one, also if it fails.
-/

namespace SszArchive

/-- The end of an operation: its answer, the state it leaves, and what it logs. -/
structure Outcome (ε σ α : Type) where
  answer : Except ε α
  state : σ
  log : Log

structure Store (σ : Type) where
  has : DiffId → σ → Except StoreFault Bool
  load : DiffId → σ → Except StoreFault Bytes
  save : DiffId → Bytes → σ → Outcome StoreFault σ Unit

end SszArchive
