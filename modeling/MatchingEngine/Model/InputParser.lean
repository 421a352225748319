import MatchingEngine.Lib.Delimited
import MatchingEngine.Model.MessageTypes

/-!
# The input parser

`input_parser.hpp`, on lists of bytes. A string view is the list of the bytes it shows. What
`parse_line` writes to its `out` parameter and to the error stream is part of the result here.
-/

namespace MatchingEngine

open Delimited

def comma : UInt8 := 44
def lineFeed : UInt8 := 10
def minus : UInt8 := 45
def hash : UInt8 := 35

/-- Space, tab, CR and LF. -/
def isWs (c : UInt8) : Bool := c = 32 || c = 9 || c = 13 || c = 10

def isDigit (c : UInt8) : Bool := 48 ≤ c && c ≤ 57

/-- `trim`. -/
def trimmed (sv : Bytes) : Bytes := trim isWs sv

/-- The next field, trimmed, and the cursor behind its comma. -/
def nextField (cursor : Bytes) : Bytes × Bytes :=
  let (field, cursor) := peel comma cursor
  (trimmed field, cursor)

/-- The value of decimal digits, most significant first. -/
def decimalValue (digits : Bytes) : Nat :=
  digits.foldl (fun value digit => 10 * value + (digit.toNat - 48)) 0

/-- `std::from_chars` in base ten for `std::int64_t`: a minus sign or none and as many digits as there
are. The result is the value and what stands behind the digits; there is none without a digit
(`invalid_argument`) and for a value out of range (`result_out_of_range`). -/
def fromChars (sv : Bytes) : Option (Int × Bytes) :=
  let negative := sv.head? = some minus
  let unsigned := if negative then sv.tail else sv
  let digits := unsigned.takeWhile isDigit
  let value : Int := if negative then -decimalValue digits else decimalValue digits
  if digits = [] then none
  else if SignedInt.int64.Fits value then some (value, unsigned.dropWhile isDigit)
  else none

/-- `parse_int<std::int64_t>`. -/
def parseInt (sv : Bytes) : Option Int :=
  if sv = [] then none
  else
    match fromChars sv with
    | some (value, []) => some value
    | _ => none

def parseSideToken (sv : Bytes) : Option Side :=
  if sv = wireBuy then some .buy
  else if sv = wireSell then some .sell
  else none

def parseTifToken (sv : Bytes) : Option Tif :=
  if sv = wireTifGtc then some .gtc
  else if sv = wireTifIoc then some .ioc
  else if sv = wireTifFok then some .fok
  else none

/-- `parse_status_t`, with the event of an accepted line and the diagnostic of an ill-formed one. -/
inductive ParseResult where
  | ok (event : InputEvent)
  | skipped
  | error (diagnostic : Bytes)
  deriving DecidableEq, Repr

/-- What `std::println` writes. -/
def println (parts : List Bytes) : Bytes := parts.flatten ++ [lineFeed]

/-- `parse_line` behind the opcode `ADD`. -/
def parseAdd (line cursor : Bytes) : ParseResult :=
  let (idField, cursor) := nextField cursor
  let (sideToken, cursor) := nextField cursor
  let (quantityField, cursor) := nextField cursor
  let (priceField, cursor) := nextField cursor
  let (tifToken, cursor) := nextField cursor
  match parseInt idField, parseInt quantityField, parseInt priceField with
  | some orderId, some quantity, some price =>
    if tifToken = [] ∨ cursor ≠ [] then
      .error (println [ascii "Ill-formed AddOrderRequest: ", line])
    else
      match parseSideToken sideToken, parseTifToken tifToken with
      | none, _ => .error (println
          [ascii "Invalid side token '", sideToken, ascii "' in AddOrderRequest: ", line])
      | some _, none => .error (println
          [ascii "Invalid time-in-force token '", tifToken, ascii "' in AddOrderRequest: ", line])
      | some side, some tif => .ok (.addOrder ⟨orderId, side, quantity, price, tif⟩)
  | _, _, _ => .error (println [ascii "Ill-formed AddOrderRequest: ", line])

/-- `parse_line` behind the opcode `CXL`. -/
def parseCancel (line cursor : Bytes) : ParseResult :=
  let (idField, cursor) := nextField cursor
  match parseInt idField with
  | some orderId =>
    if cursor ≠ [] then .error (println [ascii "Ill-formed CancelOrderRequest: ", line])
    else .ok (.cancelOrder ⟨orderId⟩)
  | none => .error (println [ascii "Ill-formed CancelOrderRequest: ", line])

def parseLine (line : Bytes) : ParseResult :=
  let line := trimmed line
  if line = [] ∨ line.head? = some hash then .skipped
  else
    let (opcode, cursor) := nextField line
    if opcode = wireAdd then parseAdd line cursor
    else if opcode = wireCancel then parseCancel line cursor
    else .error (println [ascii "Unknown message type: ", opcode])

/-- The lines that `std::getline` reads from a stream until it fails: what stands behind the last LF
is a line unless it is empty. -/
def getlines (input : Bytes) : List Bytes :=
  let pieces := input.splitOn lineFeed
  if pieces.getLast? = some [] then pieces.dropLast else pieces

/-- The loop of `parse_stream`: the events that the handler is called with, and what is written to
the error stream. -/
def parseLines : List Bytes → List InputEvent × Bytes
  | [] => ([], [])
  | line :: lines =>
    let (events, err) := parseLines lines
    match parseLine line with
    | .ok event => (event :: events, err)
    | .skipped => (events, err)
    | .error diagnostic => (events, diagnostic ++ err)

def parseStream (input : Bytes) : List InputEvent × Bytes := parseLines (getlines input)

example : parseLine (ascii " ADD, 1,BUY ,5,-100,IOC\r") = .ok (.addOrder ⟨1, .buy, 5, -100, .ioc⟩) := by
  decide

end MatchingEngine
