import MatchingEngine.Model.InputParser

/-!
# The output formatter

`output_formatter.hpp`: a line for each event.
-/

namespace MatchingEngine

/-- An integer as `std::println` prints it: in decimal, without leading zeros. -/
def formatInt (x : Int) : Bytes :=
  let digits := (Nat.toDigits 10 x.natAbs).map fun c => c.toNat.toUInt8
  if x < 0 then minus :: digits else digits

def rejectCodeToken : RejectCode → Bytes
  | .duplicateOrderId => wireRejectDuplicateId
  | .unknownOrderId => wireRejectUnknownId
  | .invalidQuantity => wireRejectInvalidQuantity
  | .invalidPrice => wireRejectInvalidPrice
  | .invalidOrderId => wireRejectInvalidOrderId

def cancelCauseToken : CancelCause → Bytes
  | .userRequest => wireCauseUser
  | .immediateOrCancel => wireCauseIoc
  | .fillOrKill => wireCauseFok

/-- A line of fields with commas between them. -/
def printFields (fields : List Bytes) : Bytes := println [[comma].intercalate fields]

/-- `output_formatter_t`; a shutdown event, which it has no overload for, is nothing to it. -/
def format : OutputEvent → Bytes
  | .trade event => printFields [wireTrade, formatInt event.aggressiveOrderId,
      formatInt event.restingOrderId, formatInt event.quantity]
  | .orderResting event => printFields [wireResting, formatInt event.orderId,
      formatInt event.filledQuantity, formatInt event.restingQuantity]
  | .orderFilled event => printFields [wireFilled, formatInt event.orderId,
      formatInt event.filledQuantity]
  | .orderCancelled event => printFields [wireCancelled, formatInt event.orderId,
      formatInt event.filledQuantity, formatInt event.cancelledQuantity, cancelCauseToken event.cause]
  | .orderRejected event => printFields [wireRejected, formatInt event.orderId,
      rejectCodeToken event.rejectCode]
  | .shutdown => []

example : format (.orderCancelled ⟨7, 0, -15, .userRequest⟩) = ascii "CAN,7,0,-15,USR\n" := by
  decide

end MatchingEngine
