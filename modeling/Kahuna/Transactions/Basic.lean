import Kahuna.Panic
import Mathlib.Data.Nat.Notation

/-!
# Transactions

The model of what `transactions.rs` uses of `transaction_container.rs`. The file is read by the `ftr_parser`
library, which looks up streams and generators.
-/

namespace Transactions

/-- `Transaction`, by its number and its times. -/
structure Transaction where
  id : ℕ
  startTime : ℕ
  endTime : ℕ
  deriving DecidableEq

/-- `TxGenerator`. -/
structure TxGenerator where
  id : ℕ
  streamId : ℕ
  name : String
  transactions : List Transaction

/-- `TxStream`. -/
structure TxStream where
  id : ℕ
  name : String
  /-- The numbers of its generators. -/
  generators : List ℕ

/-- `TransactionContainer`, by the lookups of the library. -/
structure TransactionContainer where
  getStream : ℕ → Option TxStream
  getGenerator : ℕ → Option TxGenerator

/-- `TransactionStreamRef`: a generator if there is a `genId`, and a stream otherwise. -/
structure TransactionStreamRef where
  streamId : ℕ
  genId : Option ℕ
  name : String
  deriving DecidableEq

namespace TransactionContainer

variable (c : TransactionContainer)

/-- The generator of a number, which is unwrapped. -/
def unwrapGenerator (genId : ℕ) : Run TxGenerator :=
  match c.getGenerator genId with
  | some generator => .ok generator
  | none => .error .unwrap

/-- `get_transactions_from_generator`. -/
def getTransactionsFromGenerator (genId : ℕ) : Run (List ℕ) := do
  let generator ← c.unwrapGenerator genId
  return generator.transactions.map Transaction.id

/-- `get_transactions_from_stream`. -/
def getTransactionsFromStream (streamId : ℕ) : Run (List ℕ) :=
  match c.getStream streamId with
  | some stream => do
    let ids ← stream.generators.mapM c.getTransactionsFromGenerator
    return ids.flatten
  | none => .error .unwrap

end TransactionContainer

end Transactions
