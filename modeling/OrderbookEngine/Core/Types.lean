import Mathlib.Tactic

/-!
# Data types of the engine

Strings of the source are byte sequences, enumerations with a fixed underlying
byte keep every byte value, and the record types are generic in the number type
that stands for `double`: opaque words where only storage matters, exact
rationals where prices are compared.
-/

namespace OrderbookEngine

/-- A `std::string`: any sequence of bytes. -/
abbrev StdString := List UInt8

/-- The bytes of an ASCII string literal. -/
def lit (s : String) : StdString := s.toList.map fun c => c.toNat.toUInt8

/-- The decimal digits that `std::to_string` prints. -/
def decimal (n : Nat) : StdString := lit (toString n)

/-- `enum class Exchange : uint8_t`, every byte being a value of the type. -/
structure Exchange where
  val : UInt8
  deriving DecidableEq, Repr

namespace Exchange

def unknown : Exchange := ⟨0⟩
def binance : Exchange := ⟨1⟩
def coinbase : Exchange := ⟨2⟩
def kraken : Exchange := ⟨3⟩

end Exchange

/-- The order in which `std::map` keeps exchanges. -/
instance : Ord Exchange := ⟨compareOn Exchange.val⟩

instance : Std.TransOrd Exchange := inferInstanceAs (Std.TransCmp (compareOn Exchange.val))

instance : Std.LawfulEqOrd Exchange where
  eq_of_compare {a b} h := by
    have hval : a.val = b.val := Std.LawfulEqOrd.eq_of_compare h
    cases a
    exact congrArg Exchange.mk hval

/-- `fixed_to_double`, with exact rationals for doubles. -/
def fixedToDouble (value : UInt64) : ℚ := value.toNat / 100000000

/-- Order side. -/
inductive Side where
  | bid
  | ask
  deriving DecidableEq, Repr

/-- A price level as it travels in updates and snapshots. -/
structure PriceLevelSnapshot (D : Type) where
  price : D
  quantity : D
  orderCount : UInt32
  deriving DecidableEq, Repr

/-- An exchange message brought to the common form. -/
structure NormalizedOrderBookUpdate (D : Type) where
  exchange : Exchange
  symbol : StdString
  timestamp : UInt64
  updateId : UInt64
  bids : List (PriceLevelSnapshot D)
  asks : List (PriceLevelSnapshot D)
  deriving DecidableEq, Repr

/-- The levels of one side of an update. -/
def NormalizedOrderBookUpdate.levels {D : Type} (update : NormalizedOrderBookUpdate D) :
    Side → List (PriceLevelSnapshot D)
  | .bid => update.bids
  | .ask => update.asks

end OrderbookEngine
