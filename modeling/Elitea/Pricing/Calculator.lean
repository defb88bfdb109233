/-
What one request costs, from the gateway's `cost.go` and
`default_prices.go`.

# One basis pays

A request reports tokens, milliseconds or characters, and `Units.basis`
picks the one rate that pays. Token prices come from the catalog row, from
the default table or from the last fallback, so a token count is always
priced. Audio rates come from the catalog or not at all: a quantity
without a rate of its own direction makes the request unpriced, which is
not the same as costing nothing.

# Numbers

Rates, quantities and costs are `Int64` and wrap as Go's do. The product
in `costNano` is a big integer, here an `Int`. The read price may be up to
a cache lifetime old; what is modelled is the price of the row that was
read.
-/
import Mathlib.Algebra.Order.Ring.Int

namespace Elitea.Pricing

-- =================================================================== prices

def tokensPer1M : Int64 := 1000000

def charsPer1M : Int64 := 1000000

/-- A million seconds in milliseconds. -/
def millisPer1MSeconds : Int64 := 1000000000

/-- Where a rate came from. -/
inductive Source where
  | catalog
  | default
  | fallback
  deriving DecidableEq, Repr

/-- `Price`, in nano-USD for a million units. -/
structure Price where
  inputNanoPer1M : Int64
  outputNanoPer1M : Int64
  inputNanoPer1MSeconds : Int64
  outputNanoPer1MSeconds : Int64
  inputNanoPer1MChars : Int64
  outputNanoPer1MChars : Int64
  audioFromCatalog : Bool
  source : Source
  outputDerived : Bool
  deriving DecidableEq, Repr

structure DefaultPriceEntry where
  begins : String
  inputNano : Int64
  outputNano : Int64

/-- `defaultPriceTable`. The first entry that matches pays, so a longer
name stands before the shorter one it begins with. -/
def defaultPriceTable : List DefaultPriceEntry := [
  ⟨"gpt-4o-mini", 150000000, 600000000⟩,
  ⟨"gpt-4o", 2500000000, 10000000000⟩,
  ⟨"gpt-4-turbo", 10000000000, 30000000000⟩,
  ⟨"gpt-4", 30000000000, 60000000000⟩,
  ⟨"gpt-3.5-turbo", 500000000, 1500000000⟩,
  ⟨"claude-3-5-sonnet", 3000000000, 15000000000⟩,
  ⟨"claude-3-5-haiku", 800000000, 4000000000⟩,
  ⟨"claude-3-opus", 15000000000, 75000000000⟩,
  ⟨"claude-3-haiku", 250000000, 1250000000⟩,
  ⟨"claude-sonnet-4", 3000000000, 15000000000⟩,
  ⟨"claude-opus-4", 15000000000, 75000000000⟩,
  ⟨"o1-mini", 3000000000, 12000000000⟩,
  ⟨"o1-pro", 150000000000, 600000000000⟩,
  ⟨"o1", 15000000000, 60000000000⟩,
  ⟨"gemini-1.5-flash", 75000000, 300000000⟩,
  ⟨"gemini-1.5-pro", 1250000000, 5000000000⟩,
  ⟨"gemini-2.0-flash", 100000000, 400000000⟩,
  ⟨"amazon.titan-text-express", 200000000, 600000000⟩,
  ⟨"amazon.titan-text-lite", 150000000, 200000000⟩,
  ⟨"anthropic.claude-3-sonnet", 3000000000, 15000000000⟩,
  ⟨"anthropic.claude-3-haiku", 250000000, 1250000000⟩,
  ⟨"mistral-large", 2000000000, 6000000000⟩,
  ⟨"mistral-small", 100000000, 300000000⟩]

def fallbackInputNano : Int64 := 1000000000

def fallbackOutputNano : Int64 := 3000000000

/-- `strings.ToLower`, as far as an ASCII name can tell: besides the ASCII
letters, the Kelvin sign and the dotted capital I have an ASCII lower
case. -/
def lower (c : Char) : Char :=
  if c.val = 0x212a then 'k'
  else if c.val = 0x130 then 'i'
  else c.toLower

/-- `defaultPrice`. -/
def defaultPrice (model : String) : Price :=
  let lowered := model.toList.map lower
  match defaultPriceTable.find?
      (fun e => e.begins.toList.isPrefixOf lowered) with
  | some e =>
      ⟨e.inputNano, e.outputNano, 0, 0, 0, 0, false, .default, false⟩
  | none =>
      ⟨fallbackInputNano, fallbackOutputNano, 0, 0, 0, 0, false, .fallback,
        false⟩

-- ================================================================== catalog

/-- `catalogPrices`: the price columns of one row, NULL as `none`. -/
structure CatalogPrices where
  inputTokens : Option Int64
  outputTokens : Option Int64
  inputSeconds : Option Int64
  outputSeconds : Option Int64
  inputChars : Option Int64
  outputChars : Option Int64
  deriving DecidableEq, Repr

/-- A third of the largest `Int64`. -/
def maxDerivable : Int64 := Int64.maxValue / 3

/-- `tokenPricesFromRow`: the two prices and whether the output price is
the estimate. The estimate is guarded against a price too large, not
against one too small. -/
def tokenPricesFromRow (inputNano outputNano : Option Int64) :
    Option (Int64 × Int64 × Bool) :=
  match inputNano, outputNano with
  | none, _ => none
  | some input, some output => some (input, output, false)
  | some input, none =>
      if maxDerivable < input then none
      else some (input, input * 3, true)

/-- `positiveOrZero`. -/
def positiveOrZero (v : Option Int64) : Int64 :=
  match v with
  | none => 0
  | some rate => if rate ≤ 0 then 0 else rate

/-- `lookupCatalog`, of the row that was read. -/
def lookupCatalog (row : CatalogPrices) (model : String) : Option Price :=
  let inputSeconds := positiveOrZero row.inputSeconds
  let outputSeconds := positiveOrZero row.outputSeconds
  let inputChars := positiveOrZero row.inputChars
  let outputChars := positiveOrZero row.outputChars
  let audio := decide (0 < inputSeconds) || decide (0 < outputSeconds)
    || decide (0 < inputChars) || decide (0 < outputChars)
  match tokenPricesFromRow row.inputTokens row.outputTokens with
  | some (input, output, derived) =>
      some ⟨input, output, inputSeconds, outputSeconds, inputChars,
        outputChars, audio, .catalog, derived⟩
  | none =>
      if !audio then none
      else
        -- sold by the second or by the character: no token price to read
        let d := defaultPrice model
        some ⟨d.inputNanoPer1M, d.outputNanoPer1M, inputSeconds,
          outputSeconds, inputChars, outputChars, audio, d.source, false⟩

/-- `Calculator.Price`, of the row that was read, if one was. -/
def price (row : Option CatalogPrices) (model : String) : Price :=
  (row.bind fun r => lookupCatalog r model).getD (defaultPrice model)

-- ==================================================================== costs

inductive Basis where
  | tokens
  | seconds
  | characters
  deriving DecidableEq, Repr

/-- `Units`. -/
structure Units where
  inputTokens : Int64
  outputTokens : Int64
  inputChars : Int64
  outputChars : Int64
  inputMillis : Int64
  outputMillis : Int64
  deriving DecidableEq, Repr

/-- `Units.Basis`. -/
def Units.basis (u : Units) : Basis :=
  if 0 < u.inputTokens ∨ 0 < u.outputTokens then .tokens
  else if 0 < u.inputMillis ∨ 0 < u.outputMillis then .seconds
  else if 0 < u.inputChars ∨ 0 < u.outputChars then .characters
  else .tokens

/-- `Cost`. A cost without a basis is unpriced, and has no source. -/
structure Cost where
  inputNanoUSD : Int64
  outputNanoUSD : Int64
  totalNanoUSD : Int64
  source : Option Source
  basis : Option Basis
  outputDerived : Bool
  deriving DecidableEq, Repr

def unpriced : Cost := ⟨0, 0, 0, none, none, false⟩

/-- `costNano`: the rounded cost, or nothing if it does not fit. -/
def costNano (quantity priceNanoPer1M per1M : Int64) : Option Int64 :=
  if quantity ≤ 0 ∨ priceNanoPer1M ≤ 0 then some 0
  else if per1M ≤ 0 then none
  else
    let prod := quantity.toInt * priceNanoPer1M.toInt
    let quo := (prod + (per1M / 2).toInt).tdiv per1M.toInt
    if -(2 ^ 63) ≤ quo ∧ quo < 2 ^ 63 then some (Int64.ofInt quo) else none

/-- `tokenCost`. What does not fit under the default price either counts
as zero. -/
def tokenCost (model : String) (price : Price)
    (inputTokens outputTokens : Int64) : Cost :=
  let priced := fun (p : Price) (input output : Int64) =>
    (⟨input, output, input + output, some p.source, some .tokens,
      p.outputDerived && decide (0 < outputTokens)⟩ : Cost)
  match costNano inputTokens price.inputNanoPer1M tokensPer1M,
      costNano outputTokens price.outputNanoPer1M tokensPer1M with
  | some input, some output => priced price input output
  | _, _ =>
      let d := defaultPrice model
      priced d
        ((costNano inputTokens d.inputNanoPer1M tokensPer1M).getD 0)
        ((costNano outputTokens d.outputNanoPer1M tokensPer1M).getD 0)

/-- `audioCost`. -/
def audioCost (price : Price) (basis : Basis)
    (inQty outQty inRate outRate per1M : Int64) : Cost :=
  if !price.audioFromCatalog then unpriced
  else if (0 < inQty ∧ inRate ≤ 0) ∨ (0 < outQty ∧ outRate ≤ 0) then
    unpriced
  else match costNano inQty inRate per1M, costNano outQty outRate per1M with
    | some input, some output =>
        ⟨input, output, input + output, some .catalog, some basis, false⟩
    | _, _ => unpriced

/-- `CostUnits`, of the catalog row that was read. -/
def costUnits (row : Option CatalogPrices) (model : String) (u : Units) :
    Cost :=
  let p := price row model
  match u.basis with
  | .seconds => audioCost p .seconds u.inputMillis u.outputMillis
      p.inputNanoPer1MSeconds p.outputNanoPer1MSeconds millisPer1MSeconds
  | .characters => audioCost p .characters u.inputChars u.outputChars
      p.inputNanoPer1MChars p.outputNanoPer1MChars charsPer1M
  | .tokens => tokenCost model p u.inputTokens u.outputTokens

end Elitea.Pricing
