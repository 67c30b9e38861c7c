import CycleBounds.Cache.Config
import CycleBounds.Context

/-!
# Classes of fetches

What a cache analysis says about one instruction fetch at one level. `Access.join` is the class
that covers two others, and `Access.outcomes?` the outcomes that a class leaves open.
-/

namespace CycleBounds.Cache

inductive Access where
  /-- The level above serves the fetch. -/
  | hitUpper
  /-- The line is cached, at most `age` places from the most recently used one. -/
  | alwaysHit (age : Nat)
  /-- The line is not cached. -/
  | alwaysMiss
  /-- The line is not evicted once it is loaded, so that only a first fetch can miss. -/
  | firstMiss
  | unknown
deriving DecidableEq, Repr

namespace Access

/-- The class that covers a fetch of either class. -/
def join : Access → Access → Access
  | .alwaysHit a, .alwaysHit b => .alwaysHit (max a b)
  | .alwaysHit _, .firstMiss => .firstMiss
  | .firstMiss, .alwaysHit _ => .firstMiss
  | a, b => if a = b then a else .unknown

def isHit : Access → Bool
  | .hitUpper => true
  | .alwaysHit _ => true
  | _ => false

/-- Whether the fetch hits at best and at worst, if it reaches the level at all. In a steady
iteration of the innermost loop, a line that is never evicted has been loaded before. -/
def outcomes? (access : Access) (context : Context) : Option (Bool × Bool) :=
  match access with
  | .hitUpper => none
  | .alwaysHit _ => some (true, true)
  | .alwaysMiss => some (false, false)
  | .firstMiss => some (true, context.innermost? = some .steady)
  | .unknown => some (true, false)

def text : Access → String
  | .hitUpper => "HU"
  | .alwaysHit age => s!"AH@{age}"
  | .alwaysMiss => "AM"
  | .firstMiss => "FM"
  | .unknown => "U"

def longText : Access → String
  | .hitUpper => "HitUpper"
  | .alwaysHit age => s!"AlwaysHit \x7b age: {age} \x7d"
  | .alwaysMiss => "AlwaysMiss"
  | .firstMiss => "FirstMiss"
  | .unknown => "Unknown"

end Access

structure Fetch where
  line : Nat
  access : Access
deriving DecidableEq, Repr

def Fetch.text (f : Fetch) : String :=
  lineText f.line ++ ":" ++ f.access.text

def Fetch.longText (f : Fetch) : String :=
  s!"Fetch \x7b line: TagSet({f.line}), access: {f.access.longText} \x7d"

end CycleBounds.Cache
