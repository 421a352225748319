import MatchingEngine.Model.OutputFormatter
import MatchingEngine.Text.Layout

/-!
# Writing messages

A message that is written as the documentation says, its fields with commas between them, is read
back with exactly the values it was written for. Nothing is lost on the way, since no field holds a
comma or white space: the line is cut where its fields were joined and trimming takes nothing off.
-/

namespace MatchingEngine

open Delimited

/-- A field that survives being a part of a line. -/
def Plain (field : Bytes) : Prop := ∀ c ∈ field, isWs c = false ∧ c ≠ comma

instance (field : Bytes) : Decidable (Plain field) := inferInstanceAs (Decidable (∀ c ∈ field, _))

/-- The line of a message. -/
def lineOf (message : List Bytes) : Bytes := [comma].intercalate message

section Line

variable {message : List Bytes} (hplain : ∀ field ∈ message, Plain field)

include hplain

theorem splitOn_lineOf (hne : message ≠ []) : (lineOf message).splitOn comma = message := by
  have hcomma : ∀ field ∈ message, comma ∉ field := by
    intro field hfield hmem
    exact (hplain field hfield comma hmem).2 rfl
  exact List.splitOn_intercalate comma hcomma hne

theorem fields_lineOf (hne : message ≠ []) : fields (lineOf message) = message := by
  have htrimmed : ∀ field ∈ message, trimmed field = id field := by
    intro field hfield
    exact trim_eq_self fun c hc => (hplain field hfield c hc).1
  rw [fields_eq, splitOn_lineOf hplain hne, List.map_congr_left htrimmed, List.map_id]

theorem lineFeed_not_mem_lineOf : lineFeed ∉ lineOf message := by
  intro hmem
  rcases mem_intercalate hmem with heq | ⟨field, hfield, hlf⟩
  · exact absurd heq (by decide)
  · exact absurd (hplain field hfield lineFeed hlf).1 (by decide)

end Line

theorem plain_of_isDigit {c : UInt8} (h : isDigit c = true) : isWs c = false ∧ c ≠ comma := by
  rw [isDigit, Bool.and_eq_true, decide_eq_true_iff, UInt8.le_iff_toNat_le] at h
  have hlow : 48 ≤ c.toNat := h.1
  have hne : ∀ d : UInt8, d.toNat < 48 → c ≠ d := by
    rintro d hd rfl
    omega
  simp [isWs, comma, hne 32 (by decide), hne 9 (by decide), hne 13 (by decide), hne 10 (by decide),
    hne 44 (by decide)]

theorem Denotes.plain {field : Bytes} {x : Int} (h : Denotes field x) : Plain field := by
  obtain ⟨-, digits, -, hdigits, ⟨rfl, -⟩ | ⟨rfl, -⟩⟩ := h
  · intro c hc
    exact plain_of_isDigit (hdigits c hc)
  · intro c hc
    rcases List.mem_cons.mp hc with rfl | hc
    · decide
    · exact plain_of_isDigit (hdigits c hc)

theorem plain_sideToken (side : Side) : Plain (sideToken side) := by
  cases side <;> decide +kernel

theorem plain_tifToken (tif : Tif) : Plain (tifToken tif) := by
  cases tif <;> decide +kernel

theorem Message.plain {message : List Bytes} {e : InputEvent} (h : Message message e) :
    message ≠ [] ∧ ∀ field ∈ message, Plain field := by
  cases e with
  | addOrder event =>
    obtain ⟨id, quantity, price, rfl, hid, hqty, hprice⟩ := h
    refine ⟨List.cons_ne_nil _ _, ?_⟩
    have hopcode : Plain wireAdd := by decide +kernel
    simp [hopcode, hid.plain, plain_sideToken, hqty.plain, hprice.plain, plain_tifToken]
  | cancelOrder event =>
    obtain ⟨id, rfl, hid⟩ := h
    refine ⟨List.cons_ne_nil _ _, ?_⟩
    have hopcode : Plain wireCancel := by decide +kernel
    simp [hopcode, hid.plain]
  | shutdown => exact h.elim

/-- What is written as a message is read as one. -/
theorem parseLine_lineOf {message : List Bytes} {e : InputEvent} (h : Message message e) :
    parseLine (lineOf message) = .ok e := by
  obtain ⟨hne, hplain⟩ := h.plain
  exact parseLine_eq_ok_iff.mpr ⟨message, h, Or.inl (fields_lineOf hplain hne)⟩

/-! ### Numerals -/

/-- The decimal digits of a number. -/
def decimal (n : Nat) : Bytes := (Nat.toDigits 10 n).map fun c => c.toNat.toUInt8

/-- A number with zeros in front of its digits. -/
def writeInt (zeros : Nat) (x : Int) : Bytes :=
  if x < 0 then minus :: (List.replicate zeros 48 ++ decimal x.natAbs)
  else List.replicate zeros 48 ++ decimal x.natAbs

theorem formatInt_eq (x : Int) : formatInt x = writeInt 0 x := rfl

theorem toNat_of_isDigit {c : Char} (h : c.isDigit = true) :
    48 ≤ c.toNat ∧ c.toNat ≤ 57 ∧ c.toNat.toUInt8.toNat = c.toNat := by
  obtain ⟨hlow, hhigh⟩ : 48 ≤ c.toNat ∧ c.toNat ≤ 57 := Char.isDigit_iff_toNat.mp h
  exact ⟨hlow, hhigh, Nat.mod_eq_of_lt (by omega)⟩

theorem isDigit_of_mem_decimal {n : Nat} {d : UInt8} (h : d ∈ decimal n) : isDigit d = true := by
  obtain ⟨c, hc, rfl⟩ := List.mem_map.mp h
  obtain ⟨hlow, hhigh, hbyte⟩ :=
    toNat_of_isDigit (Nat.isDigit_of_mem_toDigits (by decide) (by decide) hc)
  simp only [isDigit, Bool.and_eq_true, decide_eq_true_iff, UInt8.le_iff_toNat_le, hbyte]
  exact ⟨hlow, hhigh⟩

theorem decimalValue_map {cs : List Char} (h : ∀ c ∈ cs, c.isDigit = true) (value : Nat) :
    (cs.map fun c => c.toNat.toUInt8).foldl (fun value digit => 10 * value + (digit.toNat - 48)) value
      = Nat.ofDigitChars 10 cs value := by
  induction cs generalizing value with
  | nil => rfl
  | cons c cs ih =>
    have hbyte := (toNat_of_isDigit (h c (List.mem_cons_self ..))).2.2
    rw [List.map_cons, List.foldl_cons, hbyte, ih fun d hd => h d (List.mem_cons_of_mem _ hd)]
    rfl

theorem decimalValue_decimal (n : Nat) : decimalValue (decimal n) = n := by
  have hdigits : ∀ c ∈ Nat.toDigits 10 n, c.isDigit = true := fun c hc =>
    Nat.isDigit_of_mem_toDigits (by decide) (by decide) hc
  rw [decimalValue, decimal, decimalValue_map hdigits, Nat.ofDigitChars_ten_toDigits]

theorem decimalValue_replicate (zeros : Nat) (digits : Bytes) :
    decimalValue (List.replicate zeros 48 ++ digits) = decimalValue digits := by
  induction zeros with
  | zero => rfl
  | succ zeros ih =>
    rw [List.replicate_succ, List.cons_append, decimalValue, List.foldl_cons]
    exact ih

/-- **Numbers.** Whatever zeros stand in front of it, a numeral stands for its number. -/
theorem denotes_writeInt (zeros : Nat) {x : Int} (hfits : SignedInt.int64.Fits x) :
    Denotes (writeInt zeros x) x := by
  have hvalue : (numeral (List.replicate zeros 48 ++ decimal x.natAbs) : Int) = x.natAbs := by
    rw [← decimalValue_eq, decimalValue_replicate, decimalValue_decimal]
  refine ⟨hfits, List.replicate zeros 48 ++ decimal x.natAbs, ?_, ?_, ?_⟩
  · have hne : decimal x.natAbs ≠ [] := by simp [decimal]
    simp [hne]
  · intro d hd
    rcases List.mem_append.mp hd with hzero | hdecimal
    · rw [List.eq_of_mem_replicate hzero]
      decide
    · exact isDigit_of_mem_decimal hdecimal
  · rw [writeInt]
    by_cases hneg : x < 0
    · rw [if_pos hneg]
      exact Or.inr ⟨rfl, by omega⟩
    · rw [if_neg hneg]
      exact Or.inl ⟨rfl, by omega⟩

/-! ### Messages -/

/-- The leading zeros of the numbers of a message. -/
structure Zeros where
  orderId : Nat
  quantity : Nat
  price : Nat

/-- The fields of the message for an event; a shutdown has none. -/
def encode (zeros : Zeros) : InputEvent → List Bytes
  | .addOrder event => [wireAdd, writeInt zeros.orderId event.orderId, sideToken event.side,
      writeInt zeros.quantity event.quantity, writeInt zeros.price event.price, tifToken event.tif]
  | .cancelOrder event => [wireCancel, writeInt zeros.orderId event.orderId]
  | .shutdown => []

theorem message_encode (zeros : Zeros) {e : InputEvent} (he : e ≠ .shutdown) (hfits : e.Fits .int64) :
    Message (encode zeros e) e := by
  cases e with
  | addOrder event =>
    exact ⟨_, _, _, rfl, denotes_writeInt _ hfits.1, denotes_writeInt _ hfits.2.1,
      denotes_writeInt _ hfits.2.2⟩
  | cancelOrder event => exact ⟨_, rfl, denotes_writeInt _ hfits⟩
  | shutdown => exact absurd rfl he

/-- **What is well formed is accepted with its values.** For any event of 64-bit values, whatever
leading zeros its numbers are written with, and so for any line whose fields are those of a message. -/
theorem parseLine_encode (e : InputEvent) (he : e ≠ .shutdown) (hfits : e.Fits .int64) :
    (∀ zeros, parseLine (lineOf (encode zeros e)) = .ok e) ∧
      ∀ message, Message message e → parseLine (lineOf message) = .ok e :=
  ⟨fun zeros => parseLine_lineOf (message_encode zeros he hfits), fun _ h => parseLine_lineOf h⟩

theorem parseLine_encode_least :
    (∀ zeros, parseLine (lineOf (encode zeros (.addOrder ⟨-2 ^ 63, .sell, 0, 2 ^ 63 - 1, .fok⟩)))
        = .ok (.addOrder ⟨-2 ^ 63, .sell, 0, 2 ^ 63 - 1, .fok⟩)) ∧
      ∀ message, Message message (.addOrder ⟨-2 ^ 63, .sell, 0, 2 ^ 63 - 1, .fok⟩) →
        parseLine (lineOf message) = .ok (.addOrder ⟨-2 ^ 63, .sell, 0, 2 ^ 63 - 1, .fok⟩) :=
  parseLine_encode (.addOrder ⟨-2 ^ 63, .sell, 0, 2 ^ 63 - 1, .fok⟩) nofun (by decide +kernel)

end MatchingEngine
