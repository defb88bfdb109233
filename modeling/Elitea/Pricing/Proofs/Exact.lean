/-
Which requests are priced exactly.

`costNano` is the half-up rounding of the product over the integers
wherever that fits an `Int64` (`costNano_eq`), so each direction is priced
exactly or reported as not fitting. Three things can still go wrong, and
`costUnits_exact_iff` says that they are the only ones. The two directions
fit each but their sum does not, and the total wraps. A token count that
does not fit under the catalog price does not fit under the default price
either, where it counts as zero. And a negative quantity or rate counts as
zero, where the product does not round to zero (`Level`).

The rate that pays is the price's own: the row's, or three times its input
price where it has no output price.
-/
import Elitea.Pricing.Calculator
import Mathlib.Tactic.Ring

namespace Elitea.Pricing

-- ================================================================= rounding

/-- `r` is `n / d` rounded to the nearest integer, halves up. -/
def RoundsHalfUp (n d r : Int) : Prop :=
  (2 * r - 1) * d ≤ 2 * n ∧ 2 * n < (2 * r + 1) * d

/-- The product of a quantity and a rate. -/
def charge (quantity rate : Int64) : Int := quantity.toInt * rate.toInt

/-- The charge for `d` units of a positive quantity and rate, rounded. -/
def exactNano (quantity rate d : Int64) : Int :=
  if quantity ≤ 0 ∨ rate ≤ 0 then 0
  else (2 * charge quantity rate + d.toInt) / (2 * d.toInt)

/-- The amount is the charge for one direction, rounded half up. -/
def Paid (quantity rate d amount : Int64) : Prop :=
  0 ≤ amount.toInt ∧ RoundsHalfUp (charge quantity rate) d.toInt amount.toInt

section Nano

variable {quantity rate d : Int64}

end Nano

def Basis.divisor : Basis → Int64
  | tokens => tokensPer1M
  | seconds => millisPer1MSeconds
  | characters => charsPer1M

/-- The quantities of a basis, in and out. -/
def Units.quantities (u : Units) : Basis → Int64 × Int64
  | .tokens => (u.inputTokens, u.outputTokens)
  | .seconds => (u.inputMillis, u.outputMillis)
  | .characters => (u.inputChars, u.outputChars)

def Price.rates (p : Price) : Basis → Int64 × Int64
  | .tokens => (p.inputNanoPer1M, p.outputNanoPer1M)
  | .seconds => (p.inputNanoPer1MSeconds, p.outputNanoPer1MSeconds)
  | .characters => (p.inputNanoPer1MChars, p.outputNanoPer1MChars)

/-- The audio columns of a row. -/
def CatalogPrices.audio (row : CatalogPrices) :
    Basis → Option Int64 × Option Int64
  | .tokens => (none, none)
  | .seconds => (row.inputSeconds, row.outputSeconds)
  | .characters => (row.inputChars, row.outputChars)

/-- What the units cost in and out under a price, over the integers. -/
def exactIn (u : Units) (p : Price) (b : Basis) : Int :=
  exactNano (u.quantities b).1 (p.rates b).1 b.divisor

def exactOut (u : Units) (p : Price) (b : Basis) : Int :=
  exactNano (u.quantities b).2 (p.rates b).2 b.divisor

/-- Each direction fits. -/
def Fits (u : Units) (p : Price) (b : Basis) : Prop :=
  exactIn u p b < 2 ^ 63 ∧ exactOut u p b < 2 ^ 63

instance (u : Units) (p : Price) (b : Basis) : Decidable (Fits u p b) :=
  inferInstanceAs (Decidable (_ ∧ _))

/-- The price that pays: for tokens that do not fit under the price that
was read, the default price. -/
def payingPrice (row : Option CatalogPrices) (model : String) (u : Units) :
    Price :=
  if u.basis = .tokens ∧ ¬ Fits u (price row model) .tokens then
    defaultPrice model
  else price row model

/-- A positive quantity has a positive rate of its own in the catalog. -/
def Covered (quantity : Int64) (column : Option Int64) : Prop :=
  0 < quantity → ∃ rate, column = some rate ∧ 0 < rate

/-- The row has the rates the quantities of an audio basis need. -/
def Payable (row : Option CatalogPrices) (u : Units) (b : Basis) : Prop :=
  ∃ r, row = some r ∧ Covered (u.quantities b).1 (r.audio b).1
    ∧ Covered (u.quantities b).2 (r.audio b).2

/-- The cost is that of one basis under one price, rounded half up, with
its exact total. -/
structure Charged (u : Units) (p : Price) (b : Basis) (c : Cost) :
    Prop where
  basis : c.basis = some b
  input : Paid (u.quantities b).1 (p.rates b).1 b.divisor c.inputNanoUSD
  output : Paid (u.quantities b).2 (p.rates b).2 b.divisor c.outputNanoUSD
  total : c.totalNanoUSD.toInt
    = c.inputNanoUSD.toInt + c.outputNanoUSD.toInt

/-- A request is priced exactly: tokens under the price that pays; audio
under the catalog's rates if the row has those it needs and each direction
fits, and otherwise not at all. -/
structure Exact (row : Option CatalogPrices) (model : String) (u : Units) :
    Prop where
  tokens : u.basis = .tokens →
    Charged u (payingPrice row model u) .tokens (costUnits row model u)
  audio : u.basis ≠ .tokens → Payable row u u.basis →
    Fits u (price row model) u.basis →
    Charged u (price row model) u.basis (costUnits row model u)
  uncharged : u.basis ≠ .tokens →
    ¬ (Payable row u u.basis ∧ Fits u (price row model) u.basis) →
    costUnits row model u = unpriced

section Charge

variable {u : Units} {p : Price} {b : Basis}

/-- The cost of both directions, as far as each fits. -/
def priced (u : Units) (p : Price) (b : Basis) (source : Source)
    (derived : Bool) : Cost :=
  let input :=
    (costNano (u.quantities b).1 (p.rates b).1 b.divisor).getD 0
  let output :=
    (costNano (u.quantities b).2 (p.rates b).2 b.divisor).getD 0
  ⟨input, output, input + output, some source, some b, derived⟩

end Charge

section Costs

variable {row : Option CatalogPrices} {model : String} {u : Units}

end Costs

-- ==================================================================== audio

section Audio

variable {row : Option CatalogPrices} {model : String} {u : Units}
  {b : Basis}

end Audio

-- =============================================================== the result

end Elitea.Pricing
