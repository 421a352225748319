import MatchingEngine.Lib.SignedInt

/-!
# Messages

The events the engine takes in and gives out, and the tokens they are written with. `order_id_t`,
`price_t` and `quantity_t` are 64-bit signed integers in the source; they are integers here, and
`InputEvent.Fits` says that an event carries values of the type a run is carried out in.
-/

namespace MatchingEngine

abbrev Bytes := List UInt8

/-- The bytes of an ASCII text. -/
def ascii (s : String) : Bytes := s.toList.map fun c => c.toNat.toUInt8

/-! ### Tokens -/

def wireAdd : Bytes := ascii "ADD"
def wireCancel : Bytes := ascii "CXL"
def wireTrade : Bytes := ascii "TRD"
def wireResting : Bytes := ascii "RST"
def wireFilled : Bytes := ascii "FIL"
def wireCancelled : Bytes := ascii "CAN"
def wireRejected : Bytes := ascii "REJ"

def wireBuy : Bytes := ascii "BUY"
def wireSell : Bytes := ascii "SLL"

def wireTifGtc : Bytes := ascii "GTC"
def wireTifIoc : Bytes := ascii "IOC"
def wireTifFok : Bytes := ascii "FOK"

def wireCauseUser : Bytes := ascii "USR"
def wireCauseIoc : Bytes := ascii "IOC"
def wireCauseFok : Bytes := ascii "FOK"

def wireRejectDuplicateId : Bytes := ascii "DUP"
def wireRejectUnknownId : Bytes := ascii "UNK"
def wireRejectInvalidQuantity : Bytes := ascii "IQT"
def wireRejectInvalidPrice : Bytes := ascii "IPR"
def wireRejectInvalidOrderId : Bytes := ascii "IID"

/-! ### Sides and times in force -/

inductive Side where
  | buy
  | sell
  deriving DecidableEq, Repr

/-- `opposite_of`. -/
def Side.opposite : Side → Side
  | buy => sell
  | sell => buy

@[simp] theorem Side.opposite_opposite (side : Side) : side.opposite.opposite = side := by
  cases side <;> rfl

@[simp] theorem Side.opposite_ne (side : Side) : side.opposite ≠ side := by
  cases side <;> decide

theorem Side.eq_or_eq_opposite (side s : Side) : s = side ∨ s = side.opposite := by
  cases side <;> cases s <;> decide

inductive Tif where
  | gtc
  | ioc
  | fok
  deriving DecidableEq, Repr

/-! ### Input events -/

structure AddOrderEvent where
  orderId : Int
  side : Side
  quantity : Int
  price : Int
  tif : Tif
  deriving DecidableEq, Repr

structure CancelOrderEvent where
  orderId : Int
  deriving DecidableEq, Repr

inductive InputEvent where
  | addOrder (event : AddOrderEvent)
  | cancelOrder (event : CancelOrderEvent)
  | shutdown
  deriving DecidableEq, Repr

/-- Every number in the event is a value of the integer type. -/
def InputEvent.Fits (T : SignedInt) : InputEvent → Prop
  | addOrder event => T.Fits event.orderId ∧ T.Fits event.quantity ∧ T.Fits event.price
  | cancelOrder event => T.Fits event.orderId
  | shutdown => True

instance (T : SignedInt) (event : InputEvent) : Decidable (event.Fits T) := by
  cases event <;> simp only [InputEvent.Fits] <;> infer_instance

@[simp] theorem InputEvent.fits_unbounded (event : InputEvent) : event.Fits .unbounded := by
  cases event <;> simp [InputEvent.Fits]

/-! ### Output events -/

structure TradeEvent where
  aggressiveOrderId : Int
  restingOrderId : Int
  quantity : Int
  deriving DecidableEq, Repr

inductive RejectCode where
  | duplicateOrderId
  | unknownOrderId
  | invalidQuantity
  | invalidPrice
  | invalidOrderId
  deriving DecidableEq, Repr

inductive CancelCause where
  | userRequest
  | immediateOrCancel
  | fillOrKill
  deriving DecidableEq, Repr

structure OrderRestingEvent where
  orderId : Int
  filledQuantity : Int
  restingQuantity : Int
  deriving DecidableEq, Repr

structure OrderFilledEvent where
  orderId : Int
  filledQuantity : Int
  deriving DecidableEq, Repr

structure OrderCancelledEvent where
  orderId : Int
  filledQuantity : Int
  cancelledQuantity : Int
  cause : CancelCause
  deriving DecidableEq, Repr

structure OrderRejectedEvent where
  orderId : Int
  rejectCode : RejectCode
  deriving DecidableEq, Repr

inductive OutputEvent where
  | trade (event : TradeEvent)
  | orderResting (event : OrderRestingEvent)
  | orderFilled (event : OrderFilledEvent)
  | orderCancelled (event : OrderCancelledEvent)
  | orderRejected (event : OrderRejectedEvent)
  | shutdown
  deriving DecidableEq, Repr

def OutputEvent.trade? : OutputEvent → Option TradeEvent
  | .trade event => some event
  | _ => none

/-- The trades among these events, in order. -/
def trades (emitted : List OutputEvent) : List TradeEvent := emitted.filterMap OutputEvent.trade?

theorem trades_append (as bs : List OutputEvent) : trades (as ++ bs) = trades as ++ trades bs :=
  List.filterMap_append ..

end MatchingEngine
