import CycleBounds.Text.Quoted
import CycleBounds.Text.Reading
import CycleBounds.Word

/-!
# Cache levels

A `Config` is the geometry of one set-associative cache level and its latencies in cycles. The
number of sets and the line size are powers of two and stored by their exponents, so an address
splits into a line and an offset in it, and the low bits of a line select its set.

* `ofSizes` checks plain sizes; `ofSizes_ok_iff` says which are accepted.
* `read` takes the five sizes from a text.
* `line` and `setOf` map addresses to lines and lines to sets.
-/

namespace CycleBounds.Cache

/-- The quantities that describe a cache level, in the order in which a text gives them. -/
inductive Field where
  | sets
  | associativity
  | lineSize
  | hitLatency
  | missLatency
deriving DecidableEq, Repr

def Field.name : Field → String
  | .sets => "number of sets"
  | .associativity => "associativity"
  | .lineSize => "line size"
  | .hitLatency => "hit latency"
  | .missLatency => "miss latency"

inductive ConfigError where
  | unreadable (path : String)
  | missing (field : Field)
  | invalid (field : Field) (value : String)
  | notPowerOfTwo (field : Field) (value : Nat)
  | zeroAssociativity
deriving DecidableEq, Repr

def ConfigError.message : ConfigError → String
  | .unreadable path => s!"failed to read cache configuration {path}"
  | .missing field => s!"cache configuration lacks the {field.name} field"
  | .invalid field value =>
    s!"invalid {field.name} {Text.quote value} in cache configuration"
  | .notPowerOfTwo field value => s!"{field.name} must be a power of two, got {value}"
  | .zeroAssociativity => "associativity must be at least one"

structure Config where
  setBits : Nat
  ways : Nat
  lineBits : Nat
  hitLatency : Nat
  missLatency : Nat
  ways_pos : 0 < ways

namespace Config

def sets (c : Config) : Nat := twoPow c.setBits

def lineSize (c : Config) : Nat := twoPow c.lineBits

def line (c : Config) (address : Nat) : Nat := address / c.lineSize

def setOf (c : Config) (line : Nat) : Nat := line % c.sets

def setOfAddress (c : Config) (address : Nat) : Nat := c.setOf (c.line address)

def exponent? (n : Nat) : Option Nat :=
  if twoPow n.log2 = n then some n.log2 else none

/-- A level with the given sizes. The sets are looked at first, then the lines, then the ways. -/
def ofSizes (sets ways lineSize hitLatency missLatency : Nat) : Except ConfigError Config :=
  match exponent? sets, exponent? lineSize with
  | none, _ => .error (.notPowerOfTwo .sets sets)
  | some _, none => .error (.notPowerOfTwo .lineSize lineSize)
  | some setBits, some lineBits =>
    if h : 0 < ways then .ok { setBits, ways, lineBits, hitLatency, missLatency, ways_pos := h }
    else .error .zeroAssociativity

theorem exponent?_eq_some_iff {n k : Nat} : exponent? n = some k ↔ n = twoPow k := by
  unfold exponent?
  split
  · rename_i h
    rw [Option.some.injEq]
    constructor
    · rintro rfl
      exact h.symm
    · rintro rfl
      exact log2_twoPow k
  · rename_i h
    simp only [reduceCtorEq, false_iff]
    rintro rfl
    exact h (by rw [log2_twoPow])

/-- The accepted sizes: powers of two for sets and lines, and at least one way. -/
theorem ofSizes_ok_iff {sets ways lineSize hit miss : Nat} :
    (∃ c, ofSizes sets ways lineSize hit miss = .ok c) ↔
      (∃ i, sets = twoPow i) ∧ (∃ j, lineSize = twoPow j) ∧ 0 < ways := by
  simp only [← exponent?_eq_some_iff]
  unfold ofSizes
  split
  · simp_all
  · simp_all
  · rename_i i j hi hj
    by_cases h : 0 < ways <;> simp [h, hi, hj]

def readField (field : Field) : Option String → Except ConfigError Nat
  | none => .error (.missing field)
  | some text =>
    match Text.readWord? text with
    | some n => .ok n
    | none => .error (.invalid field text)

/-- Read a level from five numerals separated by blanks. What follows the fifth is ignored. -/
def read (text : String) : Except ConfigError Config := do
  let fields := Text.fields text
  let sets ← readField .sets fields[0]?
  let ways ← readField .associativity fields[1]?
  let lineSize ← readField .lineSize fields[2]?
  let hitLatency ← readField .hitLatency fields[3]?
  let missLatency ← readField .missLatency fields[4]?
  ofSizes sets ways lineSize hitLatency missLatency

/-- Read a level from a file, given its path and its text if there is such a file. -/
def ofContents (path : String) : Option String → Except ConfigError Config
  | none => .error (.unreadable path)
  | some text => read text

end Config

def lineText (line : Nat) : String :=
  "0x" ++ Text.hexDigits line

end CycleBounds.Cache
