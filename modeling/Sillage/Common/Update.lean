import Mathlib.Order.Basic
import Mathlib.Data.Fintype.Basic
import Mathlib.Data.Finset.Insert
import Sillage.Foundation.LittleEndian

/-!
# Streams and recorded updates

The three recorded streams and the part of a Geyser `SubscribeUpdate` that some
modelled function reads. What no function reads travels in one opaque field, so
that equality of two updates still speaks about the whole message.
-/

namespace Sillage

open LittleEndian

/-- The recorded streams, in the order of `Stream::all`. -/
inductive Stream where
  | tx
  | acct
  | block
deriving DecidableEq, Repr

namespace Stream

/-- Directory and header name of a stream. -/
def asStr : Stream → String
  | .tx => "tx"
  | .acct => "acct"
  | .block => "block"

/-- All streams, in their order. -/
def all : List Stream := [.tx, .acct, .block]

/-- Position in `all`, which breaks ties between streams. -/
def index : Stream → Nat
  | .tx => 0
  | .acct => 1
  | .block => 2

/-- Streams are told apart by their index. -/
theorem index_injective : Function.Injective index := by
  intro left right same
  cases left <;> cases right <;> first | rfl | cases same

/-- Streams are ordered by their index. -/
instance : LinearOrder Stream where
  __ := PartialOrder.lift index index_injective
  le_total left right := le_total left.index right.index
  toDecidableLE left right := inferInstanceAs (Decidable (left.index ≤ right.index))
  toDecidableLT left right := inferInstanceAs (Decidable (left.index < right.index))
  toDecidableEq := instDecidableEqStream

/-- There are three streams. -/
instance : Fintype Stream := ⟨{.tx, .acct, .block}, fun stream => by cases stream <;> decide⟩

/-- The list of all streams has every stream. -/
theorem mem_all (stream : Stream) : stream ∈ all := by cases stream <;> decide

end Stream

/-- An instruction of a transaction message. Its accounts and data are unread. -/
structure CompiledInstruction where
  programIdIndex : Nat
deriving DecidableEq

/-- What is read of the message of a transaction: the keys that it names, and its instructions.
-/
structure Message where
  accountKeys : List Bytes
  instructions : List CompiledInstruction
deriving DecidableEq

/-- What is read of a transaction. -/
structure Transaction where
  message : Option Message
deriving DecidableEq

/-- What is read of the outcome of a transaction: the error, and the keys loaded from tables. -/
structure TransactionStatusMeta where
  err : Option Bytes
  loadedWritableAddresses : List Bytes
  loadedReadonlyAddresses : List Bytes
deriving DecidableEq

/-- What is read of the transaction of an update. -/
structure SubscribeUpdateTransactionInfo where
  signature : Bytes
  isVote : Bool
  transaction : Option Transaction
  «meta» : Option TransactionStatusMeta
deriving DecidableEq

/-- The update of the transaction stream. -/
structure SubscribeUpdateTransaction where
  slot : Nat
  transaction : Option SubscribeUpdateTransactionInfo
deriving DecidableEq

/-- What is read of the account of an update. -/
structure SubscribeUpdateAccountInfo where
  pubkey : Bytes
  owner : Bytes
deriving DecidableEq

/-- The update of the account stream. -/
structure SubscribeUpdateAccount where
  slot : Nat
  account : Option SubscribeUpdateAccountInfo
deriving DecidableEq

/-- The update of the block stream. -/
structure SubscribeUpdateBlockMeta where
  slot : Nat
  parentSlot : Nat
deriving DecidableEq

/-- The kinds of update. Pings, slots, entries and full blocks are one case: the
recorder never looks inside them. -/
inductive UpdateOneof where
  | transaction (update : SubscribeUpdateTransaction)
  | account (update : SubscribeUpdateAccount)
  | blockMeta (update : SubscribeUpdateBlockMeta)
  | other (tag : Nat)
deriving DecidableEq

/-- A protobuf timestamp; both fields are signed on the wire. -/
structure Timestamp where
  seconds : Int
  nanos : Int
deriving DecidableEq

/-- One update as Geyser delivers it. -/
structure SubscribeUpdate where
  filters : List String
  createdAt : Option Timestamp
  updateOneof : Option UpdateOneof
  unread : Bytes
deriving DecidableEq

/-- The slot of an update, for the kinds that are recorded. -/
def extractSlot (update : SubscribeUpdate) : Option Nat :=
  match update.updateOneof with
  | some (.transaction t) => some t.slot
  | some (.account a) => some a.slot
  | some (.blockMeta b) => some b.slot
  | _ => none

/-- An update with the wall-clock nanoseconds of its receipt. -/
structure Stamped where
  wallNs : Nat
  inner : SubscribeUpdate
deriving DecidableEq

end Sillage
